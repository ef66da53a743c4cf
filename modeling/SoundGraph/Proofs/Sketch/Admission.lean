import SoundGraph.Proofs.Sketch.Again
import SoundGraph.Proofs.Sketch.Enlarged

/-! Which calls a sketch admits. The walk over the arguments of a call meets every element at any bundle depth, so
a call is accepted just if what it asks for is in order, and one that is refused changes nothing. Each check is made
before the first change, and what has passed it stays in order: arguments because numbers once known stay known,
slots because a control takes the number of controls in its group. -/

namespace SoundGraph

inductive Element.Hollow : Element → Prop where
  | empty : Hollow (.bundle [])
  | channel {e : Element} {channels : List Element} (hmem : e ∈ channels) (h : Hollow e) : Hollow (.bundle channels)

namespace Element

theorem hollow_bundle_iff {es : List Element} : (bundle es).Hollow ↔ es = [] ∨ ∃ e ∈ es, e.Hollow := by
  refine ⟨fun h => ?_, ?_⟩
  · cases h with
    | empty => exact .inl rfl
    | channel hmem h => exact .inr ⟨_, hmem, h⟩
  · rintro (rfl | ⟨e, hmem, h⟩)
    · exact .empty
    · exact .channel hmem h

theorem mentions_bundle_iff {es : List Element} {j : Nat} : (bundle es).Mentions j ↔ ∃ e ∈ es, e.Mentions j := by
  refine ⟨fun h => ?_, fun ⟨e, hmem, h⟩ => .bundle hmem h⟩
  cases h with
  | bundle hmem h => exact ⟨_, hmem, h⟩

/-- By induction through the channels: the walk leaves out none of them. -/
theorem fault?_eq_none_iff {known : Nat} {e : Element} :
    e.fault? known = none ↔ ¬ e.Hollow ∧ ∀ j, e.Mentions j → j < known := by
  induction e using Element.induction with
  | const v => exact ⟨fun _ => ⟨fun h => (by cases h), fun j h => (by cases h)⟩, fun _ => rfl⟩
  | out r => exact ⟨fun _ => ⟨fun h => (by cases h), fun j h => (by cases h)⟩, fun _ => rfl⟩
  | pending id =>
    refine ⟨fun h => ⟨fun hollow => (by cases hollow), fun j hj => hj.lt h⟩, fun h => ?_⟩
    rw [fault?, if_pos (h.2 id .pending)]
  | bundle es ih =>
    rw [fault?_bundle_eq_none_iff, hollow_bundle_iff]
    simp only [mentions_bundle_iff]
    refine ⟨?_, ?_⟩
    · rintro ⟨hne, hall⟩
      refine ⟨?_, ?_⟩
      · rintro (rfl | ⟨e, he, h⟩)
        · exact hne rfl
        · exact ((ih e he).1 (hall e he)).1 h
      · rintro j ⟨e, he, h⟩
        exact ((ih e he).1 (hall e he)).2 j h
    · rintro ⟨hsolid, hlt⟩
      refine ⟨fun h => hsolid (.inl h), fun e he => ?_⟩
      exact (ih e he).2 ⟨fun h => hsolid (.inr ⟨e, he, h⟩), fun j h => hlt j ⟨e, he, h⟩⟩

end Element

namespace Sketch

/-- Arguments as the inputs of the descriptor call for them: one for each, no bundle empty, every number known. -/
structure Fits (s : Sketch) (d : Descriptor) (args : List Element) : Prop where
  arity : args.length = d.inputs.length
  solid : ∀ e ∈ args, ¬ e.Hollow
  known : ∀ e ∈ args, ∀ j, e.Mentions j → j < s.size

def Admits (s : Sketch) : Call → Prop
  | .add g args => s.Fits g.descriptor args
  | .addAt g rate args => g.descriptor.supports rate = true ∧ s.Fits g.descriptor args
  | .declare _ => True
  | .declareAt g rate => g.descriptor.supports rate = true
  | .define id args =>
    ∃ node, s.pending[id]? = some node ∧ node.args = none ∧ s.Fits node.generator.descriptor args
  | .control name rate _ => rate ≠ .demand ∧ name ∉ s.controls.toList.map ControlDecl.name

/-- What a call answers and leaves behind when it is admitted. -/
def grant (s : Sketch) : Call → Reply × Sketch
  | .add g args => (some (.pending s.size), (s.record ⟨g, g.descriptor.rate, some args⟩).2)
  | .addAt g rate args => (some (.pending s.size), (s.record ⟨g, .fixed rate, some args⟩).2)
  | .declare g => (some (.pending s.size), (s.record ⟨g, g.descriptor.rate, none⟩).2)
  | .declareAt g rate => (some (.pending s.size), (s.record ⟨g, .fixed rate, none⟩).2)
  | .define id args =>
    (none, { s with pending := s.pending.modify id fun node => { node with args := some args } })
  | .control name rate default =>
    let group := s.groupOf rate
    let slot := s.groupCount group
    (some (.out ⟨group, slot⟩),
      { s with
        controls := s.controls.push ⟨name, rate, default, group, slot⟩
        groups := enlargeGroup s.groups group rate })

variable {s s' : Sketch}

theorem Fits.mono (hle : s.size ≤ s'.size) {d : Descriptor} {args : List Element} (h : s.Fits d args) :
    s'.Fits d args :=
  ⟨h.arity, h.solid, fun e he j hj => Nat.lt_of_lt_of_le (h.known e he j hj) hle⟩

theorem checkArgs_iff_fits {d : Descriptor} {args : List Element} : s.checkArgs d args = .ok () ↔ s.Fits d args := by
  simp only [checkArgs_eq_ok_iff, Element.fault?_eq_none_iff]
  exact ⟨fun ⟨ha, h⟩ => ⟨ha, fun e he => (h e he).1, fun e he => (h e he).2⟩,
    fun h => ⟨h.arity, fun e he => ⟨h.solid e he, h.known e he⟩⟩⟩

theorem checkRate_eq_ok_iff {d : Descriptor} {rate : Rate} : checkRate d rate = .ok () ↔ d.supports rate = true := by
  simp [checkRate]

theorem exists_of_answer_eq_ok {act : Except CompileError (Element × Sketch)} {reply : Reply}
    (h : (s.answer act).1 = .ok reply) : ∃ p, act = .ok p := by
  cases act with
  | ok p => exact ⟨p, rfl⟩
  | error e => cases h

theorem fits_of_addWith {g : Generator} {rule : RateRule} {args : List Element} {p : Element × Sketch}
    (h : s.addWith g rule args = .ok p) : s.Fits g.descriptor args := by
  obtain ⟨_, hcheck, -⟩ := bind_eq_ok_iff.1 h
  exact checkArgs_iff_fits.1 hcheck

/-- What is accepted was in order. -/
theorem admits_of_perform {call : Call} {reply : Reply} (h : (s.perform call).1 = .ok reply) : s.Admits call := by
  cases call with
  | add g args =>
    obtain ⟨p, hok⟩ := exists_of_answer_eq_ok h
    exact fits_of_addWith hok
  | addAt g rate args =>
    obtain ⟨p, hok⟩ := exists_of_answer_eq_ok h
    obtain ⟨_, hrate, hok⟩ := bind_eq_ok_iff.1 hok
    exact ⟨checkRate_eq_ok_iff.1 hrate, fits_of_addWith hok⟩
  | declare g => exact trivial
  | declareAt g rate =>
    obtain ⟨p, hok⟩ := exists_of_answer_eq_ok h
    obtain ⟨_, hrate, -⟩ := bind_eq_ok_iff.1 hok
    exact checkRate_eq_ok_iff.1 hrate
  | define id args =>
    rw [perform] at h
    split at h
    · next s' hok =>
      obtain ⟨hlt, hnone, hcheck, -⟩ := eq_of_define hok
      exact ⟨_, Array.getElem?_eq_getElem hlt, hnone, checkArgs_iff_fits.1 hcheck⟩
    · cases h
  | control name rate default =>
    obtain ⟨p, hok⟩ := exists_of_answer_eq_ok h
    obtain ⟨hrate, hfresh, -⟩ := eq_of_control hok
    refine ⟨hrate, fun hmem => ?_⟩
    obtain ⟨c, hc, hname⟩ := List.mem_map.1 hmem
    exact hfresh c hc hname

theorem define_of_fits {id : Nat} {args : List Element} {node : PendingNode} (hnode : s.pending[id]? = some node)
    (hnone : node.args = none) (hfits : s.Fits node.generator.descriptor args) :
    s.define id args =
      .ok { s with pending := s.pending.modify id fun node => { node with args := some args } } := by
  obtain ⟨hlt, rfl⟩ := Array.getElem?_eq_some_iff.1 hnode
  have hset : s.pending.modify id (fun node => { node with args := some args }) =
      s.pending.set id { s.pending[id] with args := some args } := by
    refine Array.ext_getElem? fun i => ?_
    rw [Array.getElem?_modify, Array.getElem?_set]
    split
    · next heq =>
      subst heq
      rw [hnode]
      rfl
    · rfl
  rw [define, dif_pos hlt, hset]
  simp only [hnone, Option.isSome_none, checkArgs_iff_fits.2 hfits]
  rfl

theorem control_of_fresh {name : String} {rate : Rate} (default : Sample) (hrate : rate ≠ .demand)
    (hfresh : name ∉ s.controls.toList.map ControlDecl.name) :
    s.control name rate default =
      .ok (.out ⟨s.groupOf rate, s.groupCount (s.groupOf rate)⟩,
        { s with
          controls := s.controls.push ⟨name, rate, default, s.groupOf rate, s.groupCount (s.groupOf rate)⟩
          groups := enlargeGroup s.groups (s.groupOf rate) rate }) := by
  have hany : ¬ s.controls.any (·.name = name) = true := by
    rw [← Array.any_toList, List.any_eq_true]
    rintro ⟨c, hc, hname⟩
    exact hfresh (List.mem_map.2 ⟨c, hc, of_decide_eq_true hname⟩)
  rw [control, if_neg hrate, if_neg hany]

/-- What is in order is accepted. -/
theorem perform_of_admits {call : Call} (h : s.Admits call) :
    s.perform call = (.ok (s.grant call).1, (s.grant call).2) := by
  cases call with
  | add g args => exact answer_addWith (checkArgs_iff_fits.2 h)
  | addAt g rate args =>
    obtain ⟨hrate, hfits⟩ := h
    rw [perform, addAt, checkRate_eq_ok_iff.2 hrate]
    exact answer_addWith (checkArgs_iff_fits.2 hfits)
  | declare g => rfl
  | declareAt g rate =>
    rw [perform, declareAt, checkRate_eq_ok_iff.2 h]
    rfl
  | define id args =>
    obtain ⟨node, hnode, hnone, hfits⟩ := h
    rw [perform, define_of_fits hnode hnone hfits]
    rfl
  | control name rate default =>
    obtain ⟨hrate, hfresh⟩ := h
    rw [perform, control_of_fresh default hrate hfresh]
    rfl

theorem perform_of_error {call : Call} {e : CompileError} (h : (s.perform call).1 = .error e) :
    s.perform call = (.error e, s) := by
  have hanswer : ∀ act : Except CompileError (Element × Sketch), (s.answer act).1 = .error e →
      s.answer act = (.error e, s) := by
    intro act h
    cases act with
    | ok p => cases h
    | error e' =>
      cases h
      rfl
  cases call with
  | define id args =>
    rw [perform] at h ⊢
    split at h
    · cases h
    · cases h
      rfl
  | _ => exact hanswer _ h

/-- What is not in order is refused, and nothing has been changed. -/
theorem perform_of_not_admits {call : Call} (h : ¬ s.Admits call) : ∃ e, s.perform call = (.error e, s) := by
  cases hres : (s.perform call).1 with
  | ok reply => exact absurd (admits_of_perform hres) h
  | error e => exact ⟨e, perform_of_error hres⟩

/-- The controls of each group have taken its slots one after the other. -/
def Tallied (s : Sketch) : Prop :=
  ∀ k, (s.controls.toList.filter (·.group = k)).map ControlDecl.slot = List.range (s.groupCount k)

theorem tallied_empty : ({} : Sketch).Tallied := fun _ => rfl

/-- One more control takes the number of those before it, and its group counts one more. -/
theorem Tallied.control (h : s.Tallied) {name : String} {rate : Rate} {default : Sample} {e : Element}
    (hok : s.control name rate default = .ok (e, s')) : s'.Tallied := by
  have hcount := groupCount_control hok
  obtain ⟨-, -, -, rfl⟩ := eq_of_control hok
  intro k
  rw [hcount, Array.toList_push, List.filter_append, List.map_append, h k]
  by_cases heq : k = s.groupOf rate
  · rw [if_pos heq, List.range_succ, heq]
    simp
  · rw [if_neg heq, Nat.add_zero]
    simp [Ne.symm heq]

theorem Tallied.run (h : s.Tallied) (calls : List Call) : (s.run calls).Tallied := by
  refine run_keeps (fun s h call => perform_keeps h call (fun _ _ _ _ _ hok => ?_) (fun _ _ => h) (fun _ _ _ hok => ?_)
    fun _ _ _ _ _ _ hok => h.control hok) h calls
  · obtain ⟨pending, rfl⟩ := pending_of_addWith hok
    exact h
  · obtain ⟨pending, rfl⟩ := pending_of_define hok
    exact h

structure WellMade (s : Sketch) : Prop where
  rules : ∀ node ∈ s.pending.toList, Permits node.generator node.rule
  args : ∀ node ∈ s.pending.toList, ∀ args, node.args = some args → s.Fits node.generator.descriptor args
  names : (s.controls.toList.map ControlDecl.name).Nodup
  rates : (s.groups.toList.map ControlGroup.rate).Nodup
  playable : ∀ g ∈ s.groups.toList, g.rate ≠ .demand
  grouped : ∀ c ∈ s.controls.toList, ∃ g, s.groups[c.group]? = some g ∧ g.rate = c.rate
  slots : ∀ (k : Nat) g, s.groups[k]? = some g →
    (s.controls.toList.filter (·.group = k)).map ControlDecl.slot = List.range g.count

theorem wellMade_run (calls : List Call) : (({} : Sketch).run calls).WellMade := by
  have hchecked := checked_empty.run calls
  have hgrouped := grouped_empty.run calls
  have hrecords := records_empty.run calls
  refine ⟨fun node hnode => (hchecked node hnode).rule, fun node hnode args hargs => ?_, ?_, ?_, fun g hg => ?_,
    fun c hc => ?_, fun k g hg => ?_⟩
  · exact checkArgs_iff_fits.1 ((hchecked node hnode).args args hargs)
  · have hnames := hrecords.names
    rwa [← hrecords.controls, List.map_map] at hnames
  · rw [hrecords.rates]
    exact nodup_eraseDups _
  · obtain ⟨k, hk⟩ := List.getElem?_of_mem hg
    exact hgrouped.rates k g (by rwa [Array.getElem?_toList] at hk)
  · obtain ⟨g, hg, hrate, -⟩ := hgrouped.group c hc
    exact ⟨g, hg, hrate⟩
  · have hslots := tallied_empty.run calls k
    rwa [groupCount, hg] at hslots

/-- Calls on a sketch made by calls. One that keeps to the rules is accepted, answers with its handle and records
what it asks for; any other fails and leaves the sketch as it was. So everything that is ever recorded is in order:
rates are supported, arguments fit, controls have names of their own, and the groups, one for each rate in use,
count their controls, which have their slots from zero on. -/
theorem run_admission (calls : List Call) :
    let s := ({} : Sketch).run calls
    s.WellMade ∧
      ∀ call, s.Admits call ∧ s.perform call = (.ok (s.grant call).1, (s.grant call).2) ∨
        ¬ s.Admits call ∧ ∃ e, s.perform call = (.error e, s) := by
  intro s
  refine ⟨wellMade_run calls, fun call => ?_⟩
  by_cases h : s.Admits call
  · exact .inl ⟨h, perform_of_admits h⟩
  · exact .inr ⟨h, perform_of_not_admits h⟩

end Sketch

end SoundGraph
