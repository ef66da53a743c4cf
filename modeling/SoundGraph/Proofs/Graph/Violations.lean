import Mathlib.Data.List.Perm.Subperm
import SoundGraph.Proofs.Graph.Validity

/-! Which violation `Graph.validate` reports. `BadInput` and `BadControl` say without a scan what is
wrong with one input or one control and with which fields it is reported; `FirstViolation` adds that all
the inputs and controls the scan passes before it are in order. The table of owners does not appear
there: what it holds is the first of the controls passed so far that has the index. -/

namespace SoundGraph

namespace Graph

variable {g : Graph} {v : Violation}

/-- What is wrong with an input of node `i`, as it is reported. -/
inductive BadInput (g : Graph) (i : Nat) : Input → Violation → Prop where
  | constant {index : Nat} (hindex : g.constants.size ≤ index) :
      BadInput g i (.constant index) (.constantOutOfRange i index g.constants.size)
  | forward {source : OutputRef} (hsource : i ≤ source.node) :
      BadInput g i (.node source) (.forwardReference i source.node)
  | output {source : OutputRef} {target : Node} (hsource : source.node < i)
      (htarget : g.nodes[source.node]? = some target) (houtput : target.outputs.size ≤ source.output) :
      BadInput g i (.node source)
        (.outputOutOfRange i source.node source.output target.outputs.size)

/-- Control `k` can take its place, which no control in front of it holds. -/
structure Claims (g : Graph) (k : Nat) (c : Control) : Prop where
  rate : c.rate ≠ .demand
  range : c.index < g.controls.size
  free : ∀ j < k, ∀ d, g.controls[j]? = some d → d.index ≠ c.index

/-- What is wrong with control `k`, as it is reported; a shared index with its first holder. -/
inductive BadControl (g : Graph) (k : Nat) (c : Control) : Violation → Prop where
  | rate (hrate : c.rate = .demand) : BadControl g k c (.invalidControlRate c.name c.rate)
  | range (hrate : c.rate ≠ .demand) (hindex : g.controls.size ≤ c.index) :
      BadControl g k c (.controlOutOfRange c.name c.index g.controls.size)
  | duplicate {j : Nat} {first : Control} (hrate : c.rate ≠ .demand)
      (hrange : c.index < g.controls.size) (hj : j < k) (hfirst : g.controls[j]? = some first)
      (hindex : first.index = c.index)
      (hearliest : ∀ l < j, ∀ d, g.controls[l]? = some d → d.index ≠ c.index) :
      BadControl g k c (.duplicateControlIndex first.name c.name c.index)

/-- The input at fault when those of the earlier nodes and those in front of it in its own node are in
order. -/
inductive FirstBadInput (g : Graph) (v : Violation) : Prop where
  | intro {i k : Nat} {node : Node} {input : Input} (hnode : g.nodes[i]? = some node)
      (hinput : node.inputs[k]? = some input) (hbad : g.BadInput i input v)
      (hnodes : ∀ j < i, ∀ earlier, g.nodes[j]? = some earlier →
        ∀ passed ∈ earlier.inputs, g.Resolves j passed)
      (hinputs : ∀ l < k, ∀ passed, node.inputs[l]? = some passed → g.Resolves i passed)

/-- The control at fault when all in front of it have taken their places. -/
inductive FirstBadControl (g : Graph) (v : Violation) : Prop where
  | intro {k : Nat} {c : Control} (hcontrol : g.controls[k]? = some c) (hbad : g.BadControl k c v)
      (hcontrols : ∀ j < k, ∀ d, g.controls[j]? = some d → g.Claims j d)

def InputsResolve (g : Graph) : Prop :=
  ∀ i node, g.nodes[i]? = some node → ∀ input ∈ node.inputs, g.Resolves i input

/-- A violation with nothing wrong in front of it: node by node and input by input, then control by
control. -/
inductive FirstViolation (g : Graph) (v : Violation) : Prop where
  | input (h : g.FirstBadInput v)
  | control (hinputs : g.InputsResolve) (h : g.FirstBadControl v)

theorem getElem?_zipIdx_eq_some_iff {α : Type} {as : Array α} {i : Nat} {p : α × Nat} :
    as.toList.zipIdx[i]? = some p ↔ p.2 = i ∧ as[i]? = some p.1 := by
  obtain ⟨a, j⟩ := p
  rw [List.getElem?_zipIdx, Option.map_eq_some_iff, Array.getElem?_toList]
  grind

theorem checkInput_eq_error_iff {i : Nat} (hi : i < g.nodes.size) (input : Input) :
    g.checkInput i input = .error v ↔ g.BadInput i input v := by
  refine ⟨fun h => ?_, fun h => ?_⟩
  · cases input with
    | constant index =>
      rw [checkInput] at h
      split at h
      · cases h
      · next hindex =>
        cases h
        exact .constant (Nat.le_of_not_lt hindex)
    | node source =>
      rw [checkInput] at h
      split at h
      · next hnone =>
        cases h
        exact .forward (Nat.le_of_lt (Nat.lt_of_lt_of_le hi (Array.getElem?_eq_none_iff.1 hnone)))
      · next target htarget =>
        split_ifs at h with hle hout
        · cases h
          exact .forward hle
        · cases h
          exact .output (Nat.lt_of_not_le hle) htarget (Nat.le_of_not_lt hout)
  · cases h with
    | constant hindex => rw [checkInput, if_neg (Nat.not_lt.2 hindex)]
    | forward hsource =>
      rw [checkInput]
      split
      · rfl
      · rw [if_pos hsource]
    | output hsource htarget houtput =>
      simp only [checkInput, htarget]
      rw [if_neg (Nat.not_le.2 hsource), if_neg (Nat.not_lt.2 houtput)]

theorem checkNodes_eq_error_iff : g.checkNodes = .error v ↔ g.FirstBadInput v := by
  have hpassed : ∀ (i : Nat) (node : Node), node.inputs.forM (g.checkInput i) = .ok () ↔
      ∀ passed ∈ node.inputs, g.Resolves i passed := by
    intro i node
    simp only [forM_eq_ok_iff, checkInput_eq_ok_iff]
  rw [checkNodes, forM_eq_error_iff]
  refine ⟨?_, ?_⟩
  · rintro ⟨i, ⟨node, j⟩, hi, herror, hnodes⟩
    obtain ⟨rfl, hnode⟩ := getElem?_zipIdx_eq_some_iff.1 hi
    obtain ⟨k, input, hinput, hbad, hinputs⟩ := forM_eq_error_iff.1 herror
    have hlt := (Array.getElem?_eq_some_iff.1 hnode).1
    refine .intro hnode hinput ((checkInput_eq_error_iff hlt input).1 hbad) ?_ ?_
    · intro l hl earlier hearlier
      exact (hpassed l earlier).1 (hnodes l hl (earlier, l) (getElem?_zipIdx_eq_some_iff.2 ⟨rfl, hearlier⟩))
    · intro l hl passed hget
      exact (g.checkInput_eq_ok_iff j passed).1 (hinputs l hl passed hget)
  · rintro @⟨i, k, node, input, hnode, hinput, hbad, hnodes, hinputs⟩
    have hlt := (Array.getElem?_eq_some_iff.1 hnode).1
    refine ⟨i, (node, i), getElem?_zipIdx_eq_some_iff.2 ⟨rfl, hnode⟩, ?_, ?_⟩
    · refine forM_eq_error_iff.2 ⟨k, input, hinput, (checkInput_eq_error_iff hlt input).2 hbad, ?_⟩
      intro l hl passed hget
      exact (g.checkInput_eq_ok_iff i passed).2 (hinputs l hl passed hget)
    · rintro l hl ⟨earlier, j⟩ hget
      obtain ⟨rfl, hearlier⟩ := getElem?_zipIdx_eq_some_iff.1 hget
      exact (hpassed j earlier).2 (hnodes j hl earlier hearlier)

def checkControl (size : Nat) (passed : List Control) (c : Control) : Except Violation Unit :=
  if c.rate = .demand then .error (.invalidControlRate c.name c.rate)
  else if c.index < size then
    match passed.find? (·.index = c.index) with
    | some first => .error (.duplicateControlIndex first.name c.name c.index)
    | none => .ok ()
  else .error (.controlOutOfRange c.name c.index size)

/-- The owner of an index is the first control passed that has it. -/
theorem claimIndices_eq_forM {owners : Array (Option String)} {passed : List Control}
    (howners : ∀ i < owners.size,
      owners[i]? = some ((passed.find? (·.index = i)).map Control.name)) (cs : List Control) :
    claimIndices owners cs = (cs.zipIdx passed.length).forM fun (c, k) =>
      checkControl owners.size ((passed ++ cs).take k) c := by
  induction cs generalizing owners passed with
  | nil => rfl
  | cons c cs ih =>
    change _ = (do
      checkControl owners.size ((passed ++ c :: cs).take passed.length) c
      (cs.zipIdx (passed.length + 1)).forM fun (d, k) =>
        checkControl owners.size ((passed ++ c :: cs).take k) d)
    rw [List.take_left, claimIndices, checkControl]
    by_cases hrate : c.rate = .demand
    · rw [if_pos hrate, if_pos hrate]
      rfl
    rw [if_neg hrate, if_neg hrate]
    by_cases hrange : c.index < owners.size
    swap
    · rw [dif_neg hrange, if_neg hrange]
      rfl
    rw [dif_pos hrange, if_pos hrange]
    have howner := howners c.index hrange
    rw [Array.getElem?_eq_getElem hrange, Option.some_inj] at howner
    rw [howner]
    cases hfirst : passed.find? (·.index = c.index) with
    | some first => rfl
    | none =>
      have hstep : ∀ i < (owners.set c.index (some c.name)).size,
          (owners.set c.index (some c.name))[i]? =
            some (((passed ++ [c]).find? (·.index = i)).map Control.name) := by
        intro i hi
        rw [Array.size_set] at hi
        rw [List.find?_append]
        by_cases heq : c.index = i
        · subst heq
          simp [hfirst]
        · rw [Array.getElem?_set_ne hrange heq, howners i hi]
          simp [heq]
      rw [ih hstep]
      simp
      rfl

theorem getElem?_take_eq_some_iff {k j : Nat} {c : Control} :
    (g.controls.toList.take k)[j]? = some c ↔ j < k ∧ g.controls[j]? = some c := by
  rw [List.getElem?_take, Array.getElem?_toList]
  by_cases hj : j < k
  · simp [hj]
  · simp [hj]

theorem find?_take_eq_none_iff {k index : Nat} :
    (g.controls.toList.take k).find? (·.index = index) = none ↔
      ∀ j < k, ∀ d, g.controls[j]? = some d → d.index ≠ index := by
  simp only [List.find?_eq_none, List.mem_iff_getElem?, getElem?_take_eq_some_iff, decide_eq_true_eq]
  exact ⟨fun h j hj d hd => h d ⟨j, hj, hd⟩, fun h d ⟨j, hj, hd⟩ => h j hj d hd⟩

/-- The first of the first `k` controls with an index. -/
theorem find?_take_eq_some_iff {k index : Nat} {c : Control} :
    (g.controls.toList.take k).find? (·.index = index) = some c ↔
      ∃ j < k, g.controls[j]? = some c ∧ c.index = index ∧
        ∀ l < j, ∀ d, g.controls[l]? = some d → d.index ≠ index := by
  rw [List.find?_eq_some_iff_getElem]
  refine ⟨?_, ?_⟩
  · rintro ⟨hindex, j, hj, hget, hearliest⟩
    obtain ⟨hk, hc⟩ := getElem?_take_eq_some_iff.1 (List.getElem?_eq_some_iff.2 ⟨hj, hget⟩)
    refine ⟨j, hk, hc, of_decide_eq_true hindex, fun l hl d hd => ?_⟩
    obtain ⟨hl', rfl⟩ := List.getElem?_eq_some_iff.1
      (getElem?_take_eq_some_iff.2 ⟨Nat.lt_trans hl hk, hd⟩)
    simpa using hearliest l hl
  · rintro ⟨j, hk, hc, hindex, hearliest⟩
    obtain ⟨hj, hget⟩ := List.getElem?_eq_some_iff.1 (getElem?_take_eq_some_iff.2 ⟨hk, hc⟩)
    refine ⟨decide_eq_true hindex, j, hj, hget, fun l hl => ?_⟩
    have hl' := List.getElem?_eq_getElem (Nat.lt_trans hl hj)
    simpa using hearliest l hl _ (getElem?_take_eq_some_iff.1 hl').2

theorem checkControl_eq_ok_iff {k : Nat} {c : Control} :
    checkControl g.controls.size (g.controls.toList.take k) c = .ok () ↔ g.Claims k c := by
  rw [checkControl]
  refine ⟨fun h => ?_, fun h => ?_⟩
  · split_ifs at h with hrate hrange
    split at h
    · cases h
    · next hfree => exact ⟨hrate, hrange, find?_take_eq_none_iff.1 hfree⟩
  · rw [if_neg h.rate, if_pos h.range, find?_take_eq_none_iff.2 h.free]

theorem checkControl_eq_error_iff {k : Nat} {c : Control} :
    checkControl g.controls.size (g.controls.toList.take k) c = .error v ↔ g.BadControl k c v := by
  rw [checkControl]
  refine ⟨fun h => ?_, fun h => ?_⟩
  · split_ifs at h with hrate hrange
    · cases h
      exact .rate hrate
    · split at h
      · next first hfirst =>
        obtain ⟨j, hj, hget, hindex, hearliest⟩ := find?_take_eq_some_iff.1 hfirst
        cases h
        exact .duplicate hrate hrange hj hget hindex hearliest
      · cases h
    · cases h
      exact .range hrate (Nat.le_of_not_lt hrange)
  · cases h with
    | rate hrate => rw [if_pos hrate]
    | range hrate hindex => rw [if_neg hrate, if_neg (Nat.not_lt.2 hindex)]
    | duplicate hrate hrange hj hfirst hindex hearliest =>
      rw [if_neg hrate, if_pos hrange,
        find?_take_eq_some_iff.2 ⟨_, hj, hfirst, hindex, hearliest⟩]

theorem checkControls_eq_error_iff : g.checkControls = .error v ↔ g.FirstBadControl v := by
  have hempty : ∀ i < (Array.replicate g.controls.size (none : Option String)).size,
      (Array.replicate g.controls.size (none : Option String))[i]? =
        some ((([] : List Control).find? (·.index = i)).map Control.name) := by
    intro i hi
    rw [Array.size_replicate] at hi
    simp [hi]
  rw [checkControls, claimIndices_eq_forM hempty, forM_eq_error_iff]
  simp only [Array.size_replicate, List.nil_append, List.length_nil]
  refine ⟨?_, ?_⟩
  · rintro ⟨k, ⟨c, j⟩, hk, herror, hcontrols⟩
    obtain ⟨rfl, hcontrol⟩ := getElem?_zipIdx_eq_some_iff.1 hk
    refine .intro hcontrol (checkControl_eq_error_iff.1 herror) fun l hl d hd => ?_
    exact checkControl_eq_ok_iff.1 (hcontrols l hl (d, l) (getElem?_zipIdx_eq_some_iff.2 ⟨rfl, hd⟩))
  · rintro @⟨k, c, hcontrol, hbad, hcontrols⟩
    refine ⟨k, (c, k), getElem?_zipIdx_eq_some_iff.2 ⟨rfl, hcontrol⟩, checkControl_eq_error_iff.2 hbad, ?_⟩
    rintro l hl ⟨d, j⟩ hget
    obtain ⟨rfl, hd⟩ := getElem?_zipIdx_eq_some_iff.1 hget
    exact checkControl_eq_ok_iff.2 (hcontrols j hl d hd)

theorem validate_eq_error_iff : g.validate = .error v ↔ g.FirstViolation v := by
  rw [validate, bind_eq_error_iff, checkNodes_eq_error_iff, checkControls_eq_error_iff]
  refine ⟨?_, ?_⟩
  · rintro (h | ⟨_, hnodes, h⟩)
    · exact .input h
    · exact .control ((g.checkNodes_eq_ok_iff).1 hnodes) h
  · rintro (h | ⟨hinputs, h⟩)
    · exact .inl h
    · exact .inr ⟨(), (g.checkNodes_eq_ok_iff).2 hinputs, h⟩

/-- Distinct places of the array are all of its places. -/
theorem wellFormed_iff_perm :
    g.WellFormed ↔ g.InputsResolve ∧ (∀ c ∈ g.controls, c.rate ≠ .demand) ∧
      (g.controls.toList.map Control.index).Perm (List.range g.controls.size) := by
  simp only [← Array.mem_toList_iff]
  refine ⟨fun h => ⟨h.inputs, h.rates, ?_⟩, fun ⟨hinputs, hrates, hperm⟩ => ⟨hinputs, hrates, ?_, ?_⟩⟩
  · have hsub : g.controls.toList.map Control.index ⊆ List.range g.controls.size := by
      intro i hi
      obtain ⟨c, hc, rfl⟩ := List.mem_map.1 hi
      exact List.mem_range.2 (h.range c hc)
    exact (h.distinct.subperm hsub).perm_of_length_le (by simp)
  · exact fun c hc => List.mem_range.1 (hperm.subset (List.mem_map_of_mem hc))
  · exact hperm.nodup_iff.2 List.nodup_range

/-- The two names of a shared index are those of its only two holders up to the repetition. -/
theorem FirstViolation.holders {first second : String} {index : Nat}
    (h : g.FirstViolation (.duplicateControlIndex first second index)) :
    ∃ (j k : Nat) (c d : Control), j < k ∧ g.controls[j]? = some c ∧ g.controls[k]? = some d ∧
      c.name = first ∧ d.name = second ∧ c.index = index ∧ d.index = index ∧
      ∀ l < k, l ≠ j → ∀ b, g.controls[l]? = some b → b.index ≠ index := by
  rcases h with ⟨⟨-, -, hbad, -, -⟩⟩ | ⟨-, ⟨hcontrol, hbad, hcontrols⟩⟩
  · cases hbad
  · rcases hbad with _ | _ | @⟨j, c, -, -, hj, hfirst, hindex, hearliest⟩
    refine ⟨j, _, c, _, hj, hfirst, hcontrol, rfl, rfl, hindex, rfl, fun l hl hne b hb => ?_⟩
    rcases Nat.lt_or_gt_of_ne hne with hlt | hgt
    · exact hearliest l hlt b hb
    · exact fun heq => (hcontrols l hl b hb).free j hgt c hfirst (hindex.trans heq.symm)

/-- `validate` accepts exactly the graphs in order, and what it reports otherwise is the first thing
that is wrong; the controls that share an index are its earliest holder and the first to repeat it. -/
theorem validate_exact (g : Graph) :
    (g.validate = .ok () ↔
      g.InputsResolve ∧ (∀ c ∈ g.controls, c.rate ≠ .demand) ∧
        (g.controls.toList.map Control.index).Perm (List.range g.controls.size)) ∧
    (∀ v, g.validate = .error v ↔ g.FirstViolation v) ∧
    ∀ first second index,
      g.validate = .error (.duplicateControlIndex first second index) →
        ∃ (j k : Nat) (c d : Control), j < k ∧ g.controls[j]? = some c ∧ g.controls[k]? = some d ∧
          c.name = first ∧ d.name = second ∧ c.index = index ∧ d.index = index ∧
          ∀ l < k, l ≠ j → ∀ b, g.controls[l]? = some b → b.index ≠ index :=
  ⟨g.validate_eq_ok_iff.trans wellFormed_iff_perm, fun _ => validate_eq_error_iff,
    fun _ _ _ h => (validate_eq_error_iff.1 h).holders⟩

/-- Of three holders of a place, the third is never mentioned. -/
example :
    let control (name : String) (index : Nat) : Control := ⟨name, .control, ⟨0⟩, index⟩
    validate ⟨#[], #[control "freq" 1, control "amp" 0, control "gate" 1, control "pan" 1], #[]⟩ =
      .error (.duplicateControlIndex "freq" "gate" 1) := by
  rfl

end Graph

end SoundGraph
