import Mathlib
import SoundGraph.Proofs.Graph.Validity
import SoundGraph.Proofs.Wire.Records

/-! The file format is a bijection between the lists of definitions that can be written and the files
that can be read. A graph that passes the check has numbers below the sizes of its tables, so once the
tables fit their counts the numbers fit their words. -/

namespace SoundGraph.Wire

theorem encodeGraph_eq_ok_iff {g : Graph} {bytes : List UInt8} :
    encodeGraph g = .ok bytes ↔
      ∃ constants controls nodes,
        TableBytes (fun v xs => xs = encodeSample v) g.constants.toList constants ∧
          TableBytes (fun c xs => encodeControl c = .ok xs) g.controls.toList controls ∧
          TableBytes (fun n xs => encodeNode n = .ok xs) g.nodes.toList nodes ∧
          bytes = constants ++ controls ++ nodes := by
  simp only [encodeGraph, bind_eq_ok_iff, encodeTable_ok_eq_ok_iff]
  simp only [encodeTable_eq_ok_iff]
  refine ⟨?_, ?_⟩
  · intro h'
    rcases h' with ⟨constants, hc, controls, hk, nodes, hn, h⟩
    cases h
    exact ⟨constants, controls, nodes, hc, hk, hn, rfl⟩
  · intro h'
    rcases h' with ⟨constants, controls, nodes, hc, hk, hn, rfl⟩
    exact ⟨constants, hc, controls, hk, nodes, hn, rfl⟩

theorem lt_span_of_encodeNode {n : Node} {bytes : List UInt8} (h : encodeNode n = .ok bytes) :
    n.outputs.size < span 4 := by
  obtain ⟨_, _, _, -, -, hout, -⟩ := encodeNode_eq_ok_iff.1 h
  exact hout.1

/-- In a well-formed graph, numbers are bounded by the tables they point into. -/
theorem fits_of_wellFormed {g : Graph} (hwf : g.WellFormed) (hconstants : g.constants.size < span 4)
    (hnodes : g.nodes.size < span 4) (houtputs : ∀ n ∈ g.nodes.toList, n.outputs.size < span 4) :
    ∀ n ∈ g.nodes.toList, ∀ i ∈ n.inputs, i.Fits := by
  intro n hn input hin
  obtain ⟨k, hk, rfl⟩ := Array.mem_iff_getElem.1 (Array.mem_toList_iff.1 hn)
  have hres := hwf.inputs k _ (Array.getElem?_eq_getElem hk) input hin
  cases input with
  | constant index => exact Nat.lt_trans hres hconstants
  | node source =>
    obtain ⟨hlt, target, ht, hout⟩ := hres
    have htarget := houtputs target (Array.mem_toList_iff.2 (Array.mem_of_getElem? ht))
    exact ⟨Nat.lt_trans hlt (Nat.lt_trans hk hnodes), Nat.lt_trans hout htarget⟩

theorem ten_le_length_encodeControl {c : Control} {bytes : List UInt8}
    (h : encodeControl c = .ok bytes) : 10 ≤ bytes.length := by
  obtain ⟨name, hname, h⟩ := bind_eq_ok_iff.1 h
  cases h
  have := one_le_length_encodeName hname
  simp only [List.length_append, List.length_cons, encodeSample, length_bigEndian]
  omega

theorem eleven_le_length_encodeNode {n : Node} {bytes : List UInt8} (h : encodeNode n = .ok bytes) :
    11 ≤ bytes.length := by
  obtain ⟨name, _, _, hname, ⟨-, _, -, rfl⟩, ⟨-, _, -, rfl⟩, rfl⟩ := encodeNode_eq_ok_iff.1 h
  have := one_le_length_encodeName hname
  simp only [List.length_append, List.length_cons, List.length_nil, length_bigEndian]
  omega

/-- The bytes of a graph, whether its references resolve or not. -/
structure GraphRecord (g : Graph) (bytes : List UInt8) : Prop where
  indices : ∀ c ∈ g.controls.toList, c.index < span 4
  inputs : ∀ n ∈ g.nodes.toList, ∀ i ∈ n.inputs, i.Fits
  written : encodeGraph g = .ok bytes

theorem parses_decodeTables (guarded : Bool) : Parses (decodeTables guarded) GraphRecord := by
  have hconstants : Parses (decodeTable guarded .constants 4 decodeSample) _ :=
    parses_decodeTable .constants parses_decodeSample fun v bytes h => by rw [h, encodeSample, length_bigEndian]
  have hcontrols : Parses (decodeTable guarded .controls 10 decodeControl) _ :=
    parses_decodeTable .controls parses_decodeControl fun c bytes h => ten_le_length_encodeControl h.2
  have hnodes : Parses (decodeTable guarded .nodes 11 (decodeNode guarded)) _ :=
    parses_decodeTable .nodes (parses_decodeNode guarded) fun n bytes h => eleven_le_length_encodeNode h.2
  refine (hconstants.bind fun constants => hcontrols.bind fun controls => hnodes.map fun nodes =>
    Graph.mk constants.toArray controls.toArray nodes.toArray).congr fun g bytes => ?_
  simp only [tableBytes_and]
  refine ⟨?_, ?_⟩
  · rintro ⟨constants, cs, _, hc, ⟨controls, ks, _, ⟨hindex, hk⟩, ⟨nodes, rfl, hfits, hn⟩, rfl⟩, rfl⟩
    exact ⟨hindex, hfits,
      encodeGraph_eq_ok_iff.2 ⟨cs, ks, _, hc, hk, hn, (List.append_assoc ..).symm⟩⟩
  · rintro ⟨hindex, hfits, hwritten⟩
    obtain ⟨cs, ks, ns, hc, hk, hn, rfl⟩ := encodeGraph_eq_ok_iff.1 hwritten
    exact ⟨_, cs, _, hc, ⟨_, ks, ns, ⟨hindex, hk⟩, ⟨_, rfl, hfits, hn⟩, rfl⟩, List.append_assoc ..⟩

/-- In a well-formed graph every number fits its word. -/
theorem graphRecord_of_wellFormed {g : Graph} {bytes : List UInt8} (hwf : g.WellFormed)
    (h : encodeGraph g = .ok bytes) : GraphRecord g bytes := by
  obtain ⟨cs, ks, ns, hc, hk, hn, -⟩ := encodeGraph_eq_ok_iff.1 h
  refine ⟨fun c hmem => Nat.lt_trans (hwf.range c hmem) hk.1, ?_, h⟩
  refine fits_of_wellFormed hwf hc.1 hn.1 fun n hmem => ?_
  obtain ⟨parts, hparts, -⟩ := hn.2
  obtain ⟨_, -, hok⟩ := exists_left_of_forall₂ hparts.flip hmem
  exact lt_span_of_encodeNode hok

theorem parses_checkGraph (start : Nat) (g : Graph) :
    Parses (checkGraph start g) fun g' bytes => (g' = g ∧ bytes = []) ∧ g.WellFormed := by
  rw [checkGraph]
  split
  · next hok =>
    have hwf := (Graph.validate_eq_ok_iff _).1 hok
    exact (parses_pure g).congr fun g' bytes => (and_iff_left hwf).symm
  · next v herr =>
    refine parses_failAt _ _ fun g' bytes h => ?_
    rw [(Graph.validate_eq_ok_iff _).2 h.2] at herr
    cases herr

theorem parses_decodeGraph (guarded : Bool) :
    Parses (decodeGraph guarded) fun g bytes => g.WellFormed ∧ encodeGraph g = .ok bytes := by
  refine .peek peeks_offset fun start =>
    ((parses_decodeTables guarded).bind (parses_checkGraph start)).congr fun g bytes => ?_
  refine ⟨?_, ?_⟩
  · rintro ⟨_, _, _, hrecord, ⟨⟨rfl, rfl⟩, hwf⟩, rfl⟩
    exact ⟨hwf, by rw [List.append_nil, hrecord.written]⟩
  · rintro ⟨hwf, hwritten⟩
    exact ⟨g, bytes, [], graphRecord_of_wellFormed hwf hwritten, ⟨⟨rfl, rfl⟩, hwf⟩, (List.append_nil _).symm⟩

theorem encodeDefinition_eq_ok_iff {d : Definition} {bytes : List UInt8} :
    encodeDefinition d = .ok bytes ↔
      ∃ name graph, encodeName d.name = .ok name ∧ d.graph.WellFormed ∧
        encodeGraph d.graph = .ok graph ∧ bytes = name ++ graph := by
  simp only [encodeDefinition, bind_eq_ok_iff, mapError_eq_ok_iff, d.graph.validate_eq_ok_iff]
  refine ⟨?_, ?_⟩
  · intro h'
    rcases h' with ⟨_, hwf, name, hname, graph, hgraph, h⟩
    cases h
    exact ⟨name, graph, hname, hwf, hgraph, rfl⟩
  · intro h'
    rcases h' with ⟨name, graph, hname, hwf, hgraph, rfl⟩
    exact ⟨(), hwf, name, hname, graph, hgraph, rfl⟩

theorem parses_decodeDefinition (guarded : Bool) :
    Parses (decodeDefinition guarded) fun d bytes => encodeDefinition d = .ok bytes := by
  refine (parses_decodeName.bind fun name =>
    (parses_decodeGraph guarded).map (Definition.mk name)).congr fun d bytes => ?_
  rw [encodeDefinition_eq_ok_iff]
  refine ⟨?_, ?_⟩
  · intro h
    rcases h with ⟨name, xs, ys, hname, ⟨graph, rfl, hwf, hgraph⟩, rfl⟩
    exact ⟨xs, ys, hname, hwf, hgraph, rfl⟩
  · intro h
    rcases h with ⟨xs, ys, hname, hwf, hgraph, rfl⟩
    exact ⟨d.name, xs, ys, hname, ⟨d.graph, rfl, hwf, hgraph⟩, rfl⟩

theorem parses_decodeHeader :
    Parses decodeHeader fun _ bytes => bytes = magic ++ bigEndian 4 version := by
  have hversion : ∀ found, Parses (if found ≠ version then failAt 4 (.unsupportedVersion (signed32 found))
      else pure ()) fun _ bytes => found = version ∧ bytes = [] := by
    intro found
    split
    · next hne => exact parses_failAt _ _ fun _ _ h => hne h.1
    · next heq => exact (parses_pure ()).congr fun _ bytes => by simp [Decidable.not_not.1 heq]
  have hrest : Parses (word 4 >>= fun found =>
      if found ≠ version then failAt 4 (.unsupportedVersion (signed32 found)) else pure ())
      fun _ bytes => bytes = bigEndian 4 version := by
    refine ((parses_word 4).bind hversion).congr fun _ bytes => ?_
    refine ⟨?_, ?_⟩
    · intro h'
      rcases h' with ⟨_, _, _, ⟨-, rfl⟩, ⟨rfl, rfl⟩, rfl⟩
      exact List.append_nil _
    · intro h'
      subst h'
      exact ⟨version, _, [], ⟨by decide, rfl⟩, ⟨rfl, rfl⟩, (List.append_nil _).symm⟩
  refine ((parses_take 4).bind (F := fun found _ bytes => found = magic ∧ bytes = bigEndian 4 version)
    fun found => ?_).congr fun _ bytes => ?_
  · dsimp only
    split
    · next hne =>
      change Parses (failAt 0 (.badMagic found)) _
      exact parses_failAt _ _ fun _ _ h => hne h.1
    · next heq => exact hrest.congr fun _ bytes => by simp [Decidable.not_not.1 heq]
  · refine ⟨?_, ?_⟩
    · intro hx
      rcases hx with ⟨_, _, _, ⟨rfl, -⟩, ⟨rfl, rfl⟩, rfl⟩
      rfl
    · intro hx
      subst hx
      exact ⟨magic, magic, _, ⟨rfl, rfl⟩, ⟨rfl, rfl⟩, rfl⟩

theorem encodeAll_eq_ok_iff {ds : List Definition} {bytes : List UInt8} :
    encodeAll ds = .ok bytes ↔
      ds.length < span 2 ∧ ∃ parts, List.Forall₂ (fun d xs => encodeDefinition d = .ok xs) ds parts ∧
        bytes = (magic ++ bigEndian 4 version) ++ (bigEndian 2 ds.length ++ parts.flatten) := by
  simp only [encodeAll, bind_eq_ok_iff, encodeCount_eq_ok_iff, mapM_eq_ok_iff]
  refine ⟨?_, ?_⟩
  · intro h'
    rcases h' with ⟨_, ⟨hlt, rfl⟩, parts, hparts, h⟩
    cases h
    exact ⟨hlt, parts, hparts, List.append_assoc ..⟩
  · intro h'
    rcases h' with ⟨hlt, parts, hparts, rfl⟩
    exact ⟨_, ⟨hlt, rfl⟩, parts, hparts, congrArg Except.ok (List.append_assoc ..)⟩

theorem decodeEnd_apply (c : Cursor) : (decodeEnd : Read Unit) c =
    if 0 < c.left then .error ⟨c.offset, .trailingBytes c.left⟩ else .ok ((), c) := by
  change (if 0 < c.left then _ else _ : Read Unit) c = _
  split <;> rfl

theorem decodeEnd_eq_ok_iff {c c' : Cursor} {u : Unit} :
    (decodeEnd : Read Unit) c = .ok (u, c') ↔ c' = c ∧ c.rest = [] := by
  have hleft : 0 < c.left ↔ c.rest ≠ [] := by rw [c.left_eq, List.length_pos_iff]
  rw [decodeEnd_apply]
  split
  · next h => simp [hleft.1 h]
  · next h =>
    have hnil : c.rest = [] := Decidable.not_not.1 fun hne => h (hleft.2 hne)
    simp [hnil, eq_comm]

theorem parses_decodeBody (guarded : Bool) :
    Parses (decodeBody guarded) fun ds bytes => encodeAll ds = .ok bytes := by
  refine (parses_decodeHeader.bind fun _ => (parses_word 2).bind fun count => .peek peeks_remaining fun left =>
    .peek (peeks_reserve .definitions _) fun _ =>
      parses_repeatRead (parses_decodeDefinition guarded) [] count).congr fun ds bytes => ?_
  rw [encodeAll_eq_ok_iff]
  refine ⟨?_, ?_⟩
  · intro h'
    rcases h' with ⟨_, _, _, rfl, ⟨_, _, _, ⟨hlt, rfl⟩, ⟨new, parts, rfl, rfl, hparts, rfl⟩, rfl⟩, rfl⟩
    exact ⟨hlt, parts, hparts, rfl⟩
  · intro h'
    rcases h' with ⟨hlt, parts, hparts, rfl⟩
    exact ⟨(), _, _, rfl, ⟨_, _, _, ⟨hlt, rfl⟩, ⟨ds, parts, rfl, rfl, hparts, rfl⟩, rfl⟩, rfl⟩

theorem readDefinitions_eq (guarded : Bool) (bytes : List UInt8) :
    readDefinitions guarded bytes = Prod.fst <$> (decodeFile guarded : Read (List Definition)) (.ofBytes bytes) := rfl

/-- With or without the early check of counts, a file is read just where it is the file of what is read. -/
theorem readDefinitions_eq_ok_iff {guarded : Bool} {bytes : List UInt8} {ds : List Definition} :
    readDefinitions guarded bytes = .ok ds ↔ encodeAll ds = .ok bytes := by
  have hrun : readDefinitions guarded bytes = .ok ds ↔
      ∃ c, (decodeFile guarded : Read (List Definition)) (.ofBytes bytes) = .ok (ds, c) := by
    rw [readDefinitions_eq]
    cases (decodeFile guarded : Read (List Definition)) (.ofBytes bytes) with
    | ok p => simp [Functor.map, Except.map, Prod.ext_iff]
    | error e => simp [Functor.map, Except.map]
  rw [hrun, decodeFile]
  refine ⟨?_, ?_⟩
  · intro hx
    rcases hx with ⟨c, h⟩
    obtain ⟨_, c', hds, h⟩ := bind_apply_eq_ok_iff.1 h
    obtain ⟨_, _, hend, h⟩ := bind_apply_eq_ok_iff.1 h
    cases h
    obtain ⟨rfl, hnil⟩ := decodeEnd_eq_ok_iff.1 hend
    obtain ⟨xs, hxs, hskip⟩ := (parses_decodeBody guarded _ _ _).1 hds
    have hall : bytes = xs := by rw [← List.append_nil xs, ← hnil, ← hskip.rest, Cursor.ofBytes]
    rwa [hall]
  · intro h
    have hskip : (Cursor.ofBytes bytes).Skips bytes ⟨bytes.length, [], 0, rfl⟩ :=
      ⟨(List.append_nil _).symm, (Nat.zero_add _).symm⟩
    refine ⟨⟨bytes.length, [], 0, rfl⟩,
      bind_apply_eq_ok_iff.2 ⟨ds, _, (parses_decodeBody guarded _ _ _).2 ⟨bytes, h, hskip⟩, ?_⟩⟩
    exact bind_apply_eq_ok_iff.2 ⟨(), _, decodeEnd_eq_ok_iff.2 ⟨rfl, rfl⟩, rfl⟩

theorem decodeAll_eq_ok_iff {bytes : List UInt8} {ds : List Definition} :
    decodeAll bytes = .ok ds ↔ encodeAll ds = .ok bytes := by
  simp only [decodeAll, Decoder.decodeAll, bind_eq_ok_iff, mapError_eq_ok_iff, readDefinitions_eq_ok_iff]
  refine ⟨fun h => ?_, fun h => ⟨ds, h, rfl⟩⟩
  obtain ⟨_, hall, hok⟩ := h
  cases hok
  exact hall

/-- What can be written reads back as it was, every bit of it, whether as a list or as the only
definition of a file. -/
theorem decode_encode :
    (∀ ds bytes, encodeAll ds = .ok bytes → decodeAll bytes = .ok ds) ∧
      ∀ d bytes, encode d = .ok bytes → decode bytes = .ok d := by
  refine ⟨fun ds bytes h => decodeAll_eq_ok_iff.2 h, fun d bytes h => ?_⟩
  have hall : decodeAll bytes = .ok [d] := decodeAll_eq_ok_iff.2 h
  rw [decodeAll] at hall
  rw [decode, Decoder.decode, hall]
  rfl

/-- Two NaNs with payloads, a negative zero, a name outside ASCII and a node with both flags. -/
def oddDefinition : Definition :=
  { name := "ø"
    graph :=
      { constants := #[⟨0x7FC00001⟩, ⟨0x80000000⟩]
        controls := #[⟨"f", .scalar, ⟨0xFF812345⟩, 0⟩]
        nodes := #[
          { name := "Control", rate := .scalar, outputs := #[.scalar] },
          { name := "Out", rate := .audio, inputs := [.constant 1, .node ⟨0, 0⟩]
            sideEffect := true, doneFlag := true }] } }

def oddBytes : List UInt8 :=
  [0x53, 0x43, 0x67, 0x66, 0, 0, 0, 2, 0, 1, 2, 0xC3, 0xB8,
    0, 0, 0, 2, 0x7F, 0xC0, 0, 1, 0x80, 0, 0, 0,
    0, 0, 0, 1, 1, 0x66, 0, 0xFF, 0x81, 0x23, 0x45, 0, 0, 0, 0,
    0, 0, 0, 2, 7, 0x43, 0x6F, 0x6E, 0x74, 0x72, 0x6F, 0x6C, 0, 0, 0, 0, 0, 0, 0, 0, 1, 0, 0,
    3, 0x4F, 0x75, 0x74, 2, 0, 0, 0, 2, 0, 0, 0, 0, 1, 1, 0, 0, 0, 0, 0, 0, 0, 0, 0, 0, 0, 0, 3]

theorem decode_encode_odd :
    encodeAll [oddDefinition] = .ok oddBytes ∧ decodeAll oddBytes = .ok [oddDefinition] ∧
      decode oddBytes = .ok oddDefinition := by
  have h : encodeAll [oddDefinition] = .ok oddBytes := by cbv
  exact ⟨h, decode_encode.1 [oddDefinition] oddBytes h, decode_encode.2 oddDefinition oddBytes h⟩

/-- Every file that is read is the file of what was read, so no two files hold the same definitions. -/
theorem encode_decode :
    (∀ bytes ds, decodeAll bytes = .ok ds → encodeAll ds = .ok bytes) ∧
      ∀ bytes bytes' ds, decodeAll bytes = .ok ds → decodeAll bytes' = .ok ds → bytes = bytes' := by
  refine ⟨fun bytes ds h => decodeAll_eq_ok_iff.1 h, fun bytes bytes' ds h h' => ?_⟩
  rw [decodeAll_eq_ok_iff] at h h'
  exact Except.ok.inj (h.symm.trans h')

theorem encode_decode_odd :
    decodeAll oddBytes = .ok [oddDefinition] ∧ encodeAll [oddDefinition] = .ok oddBytes := by
  have h : decodeAll oddBytes = .ok [oddDefinition] := by cbv
  exact ⟨h, encode_decode.1 oddBytes [oddDefinition] h⟩

end SoundGraph.Wire
