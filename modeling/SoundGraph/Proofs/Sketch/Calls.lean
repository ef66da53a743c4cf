import SoundGraph.Proofs.Success
import SoundGraph.Sketch

/-! What every call keeps. A call records a node with checked arguments, records a declaration, defines one
or adds a control, and it changes nothing if it fails; so a property that these four keep holds of every
sketch made by calls. -/

namespace SoundGraph.Sketch

variable {P : Sketch → Prop} {s : Sketch}

/-- The rate rules that a call gives to nodes of the generator: that of its descriptor, or a rate that is supported. -/
inductive Permits (g : Generator) : RateRule → Prop where
  | own : Permits g g.descriptor.rate
  | fixed {rate : Rate} (h : checkRate g.descriptor rate = .ok ()) : Permits g (.fixed rate)

theorem perform_keeps_permitted (hs : P s) (call : Call)
    (hadd : ∀ g rule args e s', Permits g rule → s.addWith g rule args = .ok (e, s') → P s')
    (hdeclare : ∀ g rule, Permits g rule → P (s.record ⟨g, rule, none⟩).2)
    (hdefine : ∀ id args s', s.define id args = .ok s' → P s')
    (hcontrol : ∀ name rate default e s', call = .control name rate default →
      s.control name rate default = .ok (e, s') → P s') :
    P (s.perform call).2 := by
  have hanswer : ∀ result : Except CompileError (Element × Sketch),
      (∀ e s', result = .ok (e, s') → P s') → P (s.answer result).2 := by
    intro result hok
    cases result with
    | ok p => exact hok p.1 p.2 rfl
    | error e => exact hs
  cases call with
  | add g args => exact hanswer _ fun e s' => hadd g _ args e s' .own
  | addAt g rate args =>
    refine hanswer _ fun e s' hok => ?_
    obtain ⟨_, hrate, hok⟩ := bind_eq_ok_iff.1 hok
    exact hadd g _ args e s' (.fixed hrate) hok
  | declare g => exact hdeclare g _ .own
  | declareAt g rate =>
    refine hanswer _ fun e s' hok => ?_
    obtain ⟨_, hrate, hok⟩ := bind_eq_ok_iff.1 hok
    cases hok
    exact hdeclare g _ (.fixed hrate)
  | define id args =>
    rw [Sketch.perform]
    split
    · next s' hok => exact hdefine id args s' hok
    · exact hs
  | control name rate default => exact hanswer _ fun e s' => hcontrol name rate default e s' rfl

/-- Where it does not matter which rate rules are given. -/
theorem perform_keeps (hs : P s) (call : Call)
    (hadd : ∀ g rule args e s', s.addWith g rule args = .ok (e, s') → P s')
    (hdeclare : ∀ g rule, P (s.record ⟨g, rule, none⟩).2)
    (hdefine : ∀ id args s', s.define id args = .ok s' → P s')
    (hcontrol : ∀ name rate default e s', call = .control name rate default →
      s.control name rate default = .ok (e, s') → P s') :
    P (s.perform call).2 :=
  perform_keeps_permitted hs call (fun g rule args e s' _ => hadd g rule args e s') (fun g rule _ => hdeclare g rule)
    hdefine hcontrol

/-- What gets arguments is a declaration that has none. -/
theorem eq_of_define {id : Nat} {args : List Element} {s' : Sketch} (h : s.define id args = .ok s') :
    ∃ hlt : id < s.pending.size, s.pending[id].args = none ∧
      s.checkArgs s.pending[id].generator.descriptor args = .ok () ∧
      s' = { s with pending := s.pending.set id { s.pending[id] with args := some args } } := by
  unfold define at h
  split at h
  · next hlt =>
    dsimp only at h
    split at h
    · cases h
    · next hnone =>
      obtain ⟨⟨⟩, hcheck, h⟩ := bind_eq_ok_iff.1 h
      cases h
      exact ⟨hlt, Option.not_isSome_iff_eq_none.1 hnone, hcheck, rfl⟩
  · cases h

theorem pending_of_define {id : Nat} {args : List Element} {s' : Sketch} (h : s.define id args = .ok s') :
    ∃ pending, s' = { s with pending } := by
  obtain ⟨-, -, -, rfl⟩ := eq_of_define h
  exact ⟨_, rfl⟩

theorem pending_of_addWith {g : Generator} {rule : RateRule} {args : List Element} {e : Element} {s' : Sketch}
    (h : s.addWith g rule args = .ok (e, s')) : ∃ pending, s' = { s with pending } := by
  obtain ⟨_, -, h⟩ := bind_eq_ok_iff.1 h
  cases h
  exact ⟨_, rfl⟩

/-- A call that declares no control only touches the pending nodes. -/
theorem pending_of_perform {call : Call} (h : ∀ name rate default, call ≠ .control name rate default) :
    ∃ pending, (s.perform call).2 = { s with pending } :=
  perform_keeps (P := fun s' => ∃ pending, s' = { s with pending }) ⟨s.pending, rfl⟩ call
    (fun _ _ _ _ _ hok => pending_of_addWith hok) (fun _ _ => ⟨_, rfl⟩) (fun _ _ _ hok => pending_of_define hok)
    fun name rate default _ _ heq _ => absurd heq (h name rate default)

/-- A control takes the next slot of the group of its rate. -/
theorem eq_of_control {name : String} {rate : Rate} {default : Sample} {e : Element} {s' : Sketch}
    (h : s.control name rate default = .ok (e, s')) :
    rate ≠ .demand ∧ (∀ c ∈ s.controls.toList, c.name ≠ name) ∧
      e = .out ⟨s.groupOf rate, s.groupCount (s.groupOf rate)⟩ ∧
      s' = { s with
        controls := s.controls.push ⟨name, rate, default, s.groupOf rate, s.groupCount (s.groupOf rate)⟩
        groups := enlargeGroup s.groups (s.groupOf rate) rate } := by
  unfold control at h
  split at h
  · cases h
  next hrate =>
  split at h
  · cases h
  next hfresh =>
  cases h
  refine ⟨hrate, fun c hc hname => hfresh ?_, rfl, rfl⟩
  rw [← Array.any_toList, List.any_eq_true]
  exact ⟨c, hc, decide_eq_true hname⟩

theorem run_keeps (h : ∀ s, P s → ∀ call, P (s.perform call).2) (hs : P s) (calls : List Call) :
    P (s.run calls) := by
  induction calls generalizing s with
  | nil => exact hs
  | cons call calls ih => exact ih (h s hs call)

end SoundGraph.Sketch
