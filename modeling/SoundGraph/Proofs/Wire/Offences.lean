import SoundGraph.Proofs.Wire.Encodable

/-! What the writer reports of definitions that it cannot write. With the bytes put aside, writing is a scan: it
looks at the number of definitions, then at one definition after the other, at the graph first and then at the
names in the order in which they are written. Tables that fit their counts are never looked at, and neither are
the numbers in them. So the error is that of the first offence met. -/

namespace SoundGraph

def Definition.names (d : Definition) : List String :=
  d.name :: (d.graph.controls.toList.map Control.name ++ d.graph.nodes.toList.map Node.name)

namespace Wire

/-- What keeps a definition out of a file, as it is reported: its graph, or else the first of its names that is
too long. -/
inductive Offence (d : Definition) : WireError → Prop where
  | graph {v : Violation} (h : d.graph.validate = .error v) : Offence d (.invalidGraph d.name v)
  | name {k : Nat} {name : String} (hgraph : d.graph.validate = .ok ()) (hname : d.names[k]? = some name)
    (hlong : 255 < name.utf8ByteSize)
    (hbefore : ∀ l < k, ∀ s, d.names[l]? = some s → s.utf8ByteSize ≤ 255) :
    Offence d (.nameTooLong name name.utf8ByteSize)

/-- The offence that comes first: too many definitions, or else that of the first definition that has one. -/
inductive FirstOffence (ds : List Definition) : WireError → Prop where
  | count (h : 65535 < ds.length) : FirstOffence ds (.tooMany .definitions ds.length 65535)
  | definition {k : Nat} {d : Definition} {e : WireError} (hcount : ds.length ≤ 65535) (hd : ds[k]? = some d)
    (h : Offence d e) (hbefore : ∀ l < k, ∀ d', ds[l]? = some d' → d'.graph.validate = .ok () ∧ d'.NamesFit) :
    FirstOffence ds e

section Outcome

variable {α β ε : Type}

/-- Whether the action succeeds, without what it answers. -/
def outcome (act : Except ε α) : Except ε Unit := act.map fun _ => ()

theorem outcome_eq_ok_iff {act : Except ε α} : outcome act = .ok () ↔ ∃ a, act = .ok a := by
  cases act <;> simp [outcome, Except.map]

theorem outcome_eq_error_iff {act : Except ε α} {e : ε} : outcome act = .error e ↔ act = .error e := by
  cases act <;> simp [outcome, Except.map]

theorem outcome_bind (act : Except ε α) (f : α → Except ε β) :
    outcome (act >>= f) = act >>= fun a => outcome (f a) := by
  cases act <;> rfl

/-- What is done with the answer afterwards has no part in it. -/
theorem outcome_bind_pure (act : Except ε α) (f : α → β) : outcome (act >>= fun a => pure (f a)) = outcome act := by
  cases act <;> rfl

theorem bind_outcome (act : Except ε α) (f : Except ε β) : (act >>= fun _ => f) = outcome act >>= fun _ => f := by
  cases act <;> rfl

theorem outcome_mapM (f : α → Except ε β) (as : List α) :
    outcome (as.mapM f) = as.forM fun a => outcome (f a) := by
  induction as with
  | nil => rfl
  | cons a as ih =>
    rw [List.mapM_cons, outcome_bind]
    change _ = (outcome (f a) >>= fun _ => as.forM fun a => outcome (f a))
    simp only [outcome_bind_pure, ih]
    exact bind_outcome _ _

theorem forM_congr {f g : α → Except ε Unit} {as : List α} (h : ∀ a ∈ as, f a = g a) : as.forM f = as.forM g := by
  induction as with
  | nil => rfl
  | cons a as ih =>
    obtain ⟨ha, has⟩ := List.forall_mem_cons.1 h
    change (f a >>= fun _ => as.forM f) = (g a >>= fun _ => as.forM g)
    rw [ha, ih has]

end Outcome

def fitName (s : String) : Except WireError Unit :=
  if s.utf8ByteSize ≤ 255 then .ok () else .error (.nameTooLong s s.utf8ByteSize)

theorem fitName_eq_ok_iff {s : String} : fitName s = .ok () ↔ s.utf8ByteSize ≤ 255 := by
  simp [fitName]

theorem fitName_eq_error_iff {s : String} {e : WireError} :
    fitName s = .error e ↔ 255 < s.utf8ByteSize ∧ e = .nameTooLong s s.utf8ByteSize := by
  unfold fitName
  split
  · next h => simp [Nat.not_lt.2 h]
  · next h => simp [Nat.lt_of_not_le h, eq_comm]

theorem outcome_encodeName (s : String) : outcome (encodeName s) = fitName s := by
  simp only [encodeName, fitName, length_toUTF8, ← Nat.lt_succ_iff]
  split <;> rfl

theorem outcome_encodeTable {α : Type} {table : Table} {entry : α → Encoded} {as : List α}
    (h : as.length < 2 ^ 32) : outcome (encodeTable table entry as) = as.forM fun a => outcome (entry a) := by
  have hcount : encodeCount table 4 as.length = .ok (bigEndian 4 as.length) := if_pos h
  rw [encodeTable, hcount, ← outcome_mapM]
  exact outcome_bind_pure _ _

/-- Entries that can always be written. -/
theorem encodeTable_ok {α : Type} (table : Table) (entry : α → List UInt8) {as : List α} (h : as.length < 2 ^ 32) :
    outcome (encodeTable table (fun a => .ok (entry a)) as) = .ok () := by
  rw [outcome_encodeTable h, forM_eq_ok_iff]
  exact fun _ _ => rfl

theorem outcome_encodeControl (c : Control) : outcome (encodeControl c) = fitName c.name := by
  rw [encodeControl, outcome_bind_pure, outcome_encodeName]

theorem outcome_encodeNode {n : Node} (hinputs : n.inputs.length < 2 ^ 32) (houtputs : n.outputs.size < 2 ^ 32) :
    outcome (encodeNode n) = fitName n.name := by
  obtain ⟨inputs, hin⟩ := outcome_eq_ok_iff.1 (encodeTable_ok .inputs encodeInput hinputs)
  have hlength : n.outputs.toList.length < 2 ^ 32 := houtputs
  obtain ⟨outputs, hout⟩ := outcome_eq_ok_iff.1 (encodeTable_ok .outputs (fun r => [encodeRate r]) hlength)
  rw [encodeNode, hin, hout, ← outcome_encodeName]
  exact outcome_bind_pure _ _

theorem outcome_encodeGraph {g : Graph} (h : g.TablesFit) :
    outcome (encodeGraph g) =
      (g.controls.toList.map Control.name ++ g.nodes.toList.map Node.name).forM fitName := by
  have hlength : g.constants.toList.length < 2 ^ 32 := h.constants
  obtain ⟨constants, hconstants⟩ := outcome_eq_ok_iff.1 (encodeTable_ok .constants encodeSample hlength)
  have hcontrols : outcome (encodeTable .controls encodeControl g.controls.toList) =
      (g.controls.toList.map Control.name).forM fitName := by
    rw [outcome_encodeTable h.controls, forM_congr fun c _ => outcome_encodeControl c]
    exact List.forM_map.symm
  have hnodes : outcome (encodeTable .nodes encodeNode g.nodes.toList) =
      (g.nodes.toList.map Node.name).forM fitName := by
    rw [outcome_encodeTable h.nodes,
      forM_congr fun n hn => outcome_encodeNode (h.inputs n hn) (h.outputs n hn)]
    exact List.forM_map.symm
  rw [encodeGraph, hconstants]
  change outcome (encodeTable .controls encodeControl g.controls.toList >>= fun controls =>
    encodeTable .nodes encodeNode g.nodes.toList >>= fun nodes => pure (constants ++ controls ++ nodes)) = _
  rw [outcome_bind]
  simp only [outcome_bind_pure]
  rw [bind_outcome, hcontrols, hnodes]
  exact List.forM_append.symm

/-- The graph first, then the names. -/
theorem outcome_encodeDefinition {d : Definition} (h : d.graph.TablesFit) :
    outcome (encodeDefinition d) =
      d.graph.validate.mapError (.invalidGraph d.name) >>= fun _ => d.names.forM fitName := by
  rw [encodeDefinition, outcome_bind]
  congr 1
  funext _
  rw [outcome_bind]
  simp only [outcome_bind_pure, outcome_encodeGraph h]
  rw [bind_outcome, outcome_encodeName]
  rfl

theorem encodeDefinition_ok_iff {d : Definition} (h : d.graph.TablesFit) :
    outcome (encodeDefinition d) = .ok () ↔ d.graph.validate = .ok () ∧ d.NamesFit := by
  rw [outcome_eq_ok_iff, exists_encodeDefinition_iff, Graph.validate_eq_ok_iff, and_iff_left h]

theorem encodeDefinition_error_iff {d : Definition} (h : d.graph.TablesFit) {e : WireError} :
    outcome (encodeDefinition d) = .error e ↔ Offence d e := by
  rw [outcome_encodeDefinition h, bind_eq_error_iff]
  simp only [mapError_eq_error_iff, mapError_eq_ok_iff, forM_eq_error_iff, fitName_eq_error_iff, fitName_eq_ok_iff]
  refine ⟨?_, ?_⟩
  · rintro (⟨v, hv, rfl⟩ | ⟨_, hgraph, k, name, hname, ⟨hlong, rfl⟩, hbefore⟩)
    · exact .graph hv
    · exact .name hgraph hname hlong hbefore
  · rintro (⟨hv⟩ | ⟨hgraph, hname, hlong, hbefore⟩)
    · exact .inl ⟨_, hv, rfl⟩
    · exact .inr ⟨(), hgraph, _, _, hname, ⟨hlong, rfl⟩, hbefore⟩

theorem outcome_encodeAll (ds : List Definition) :
    outcome (encodeAll ds) =
      (if ds.length ≤ 65535 then .ok () else .error (.tooMany .definitions ds.length 65535)) >>=
        fun _ => ds.forM fun d => outcome (encodeDefinition d) := by
  have hcount : outcome (encodeCount .definitions 2 ds.length) =
      if ds.length ≤ 65535 then .ok () else .error (.tooMany .definitions ds.length 65535) := by
    rw [encodeCount, show span 2 = 65536 from rfl]
    simp only [← Nat.lt_succ_iff]
    split <;> rfl
  rw [encodeAll, outcome_bind]
  simp only [outcome_bind_pure, outcome_mapM]
  rw [bind_outcome, hcount]

theorem encodeAll_eq_error_iff {ds : List Definition} (hfit : ∀ d ∈ ds, d.graph.TablesFit) {e : WireError} :
    encodeAll ds = .error e ↔ FirstOffence ds e := by
  have hfit' : ∀ {k : Nat} {d : Definition}, ds[k]? = some d → d.graph.TablesFit := fun hd =>
    hfit _ (List.mem_of_getElem? hd)
  rw [← outcome_eq_error_iff, outcome_encodeAll, bind_eq_error_iff]
  simp only [ite_eq_ok_iff, forM_eq_error_iff]
  refine ⟨?_, ?_⟩
  · rintro (hcount | ⟨_, ⟨hcount, -⟩, k, d, hd, he, hbefore⟩)
    · split at hcount
      · cases hcount
      · next hlt =>
        cases hcount
        exact .count (Nat.lt_of_not_le hlt)
    · exact .definition hcount hd ((encodeDefinition_error_iff (hfit' hd)).1 he) fun l hl d' hd' =>
        (encodeDefinition_ok_iff (hfit' hd')).1 (hbefore l hl d' hd')
  · rintro (hcount | ⟨hcount, hd, h, hbefore⟩)
    · exact .inl (if_neg (Nat.not_le.2 hcount))
    · exact .inr ⟨(), ⟨hcount, trivial⟩, _, _, hd, (encodeDefinition_error_iff (hfit' hd)).2 h,
        fun l hl d' hd' => (encodeDefinition_ok_iff (hfit' hd')).2 (hbefore l hl d' hd')⟩

/-- What is written, and what is reported otherwise. -/
theorem encodeAll_exact (ds : List Definition) (hfit : ∀ d ∈ ds, d.graph.TablesFit) :
    ((∃ bytes, encodeAll ds = .ok bytes) ↔
      ds.length ≤ 65535 ∧ ∀ d ∈ ds, d.graph.validate = .ok () ∧ d.NamesFit) ∧
    ∀ e, encodeAll ds = .error e ↔ FirstOffence ds e := by
  refine ⟨?_, fun e => encodeAll_eq_error_iff hfit⟩
  rw [exists_encodeAll_iff]
  refine and_congr Nat.lt_succ_iff (forall₂_congr fun d hd => ?_)
  rw [Graph.validate_eq_ok_iff, and_iff_left (hfit d hd)]

def swell : Definition :=
  { name := "swell"
    graph := { controls := #[⟨"gate", .control, .zero, 0⟩,
      ⟨String.ofList (List.replicate 128 'ø'), .control, .zero, 1⟩] } }

theorem encodeAll_exact_swell :
    (∀ d ∈ [⟨"hum", {}⟩, swell], d.graph.TablesFit) ∧
      encodeAll [⟨"hum", {}⟩, swell] =
        .error (.nameTooLong (String.ofList (List.replicate 128 'ø')) 256) := by
  have hfit : ∀ d ∈ [⟨"hum", {}⟩, swell], d.graph.TablesFit := by
    simp only [List.forall_mem_cons, List.not_mem_nil, false_imp_iff, implies_true, and_true]
    exact ⟨⟨by decide, by decide, by decide, by simp, by simp⟩,
      ⟨by decide, by decide, by decide, by simp [swell], by simp [swell]⟩⟩
  have hsize : (String.ofList (List.replicate 128 'ø')).utf8ByteSize = 256 := by decide +kernel
  refine ⟨hfit, ((encodeAll_exact _ hfit).2 _).2 ?_⟩
  rw [← hsize]
  have hhum : ∀ l < 1, ∀ d : Definition, [⟨"hum", {}⟩, swell][l]? = some d →
      d.graph.validate = .ok () ∧ d.NamesFit := by
    rintro (_ | l) hl d hd
    · cases hd
      exact ⟨by decide, by decide, by simp, by simp⟩
    · omega
  have hbefore : ∀ l < 2, ∀ s, swell.names[l]? = some s → s.utf8ByteSize ≤ 255 := by
    rintro (_ | _ | l) hl s hs
    · cases hs
      decide
    · cases hs
      decide
    · omega
  have hlong : 255 < (String.ofList (List.replicate 128 'ø')).utf8ByteSize := by
    rw [hsize]
    decide
  exact .definition (by decide) rfl (.name (by decide) rfl hlong hbefore) hhum

end Wire

end SoundGraph
