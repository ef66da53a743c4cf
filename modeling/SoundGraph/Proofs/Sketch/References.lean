import SoundGraph.Proofs.Sketch.Handles

/-! References in arguments. A reference that a call has answered with names a slot of a control group, and as
groups only grow it goes on naming that slot. -/

namespace SoundGraph

inductive Element.Refers (r : OutputRef) : Element → Prop where
  | out : Refers r (.out r)
  | bundle {e : Element} {channels : List Element} (hmem : e ∈ channels) (h : Refers r e) :
    Refers r (.bundle channels)

namespace Element

variable {r : OutputRef}

@[simp] theorem refers_const (v : Sample) : ¬ (const v).Refers r := fun h => by cases h

@[simp] theorem refers_pending (id : Nat) : ¬ (pending id).Refers r := fun h => by cases h

@[simp] theorem refers_out_iff {source : OutputRef} : (out source).Refers r ↔ r = source := by
  refine ⟨fun h => ?_, fun h => h ▸ .out⟩
  cases h
  rfl

@[simp] theorem refers_bundle_iff {es : List Element} : (bundle es).Refers r ↔ ∃ e ∈ es, e.Refers r := by
  refine ⟨fun h => ?_, fun ⟨e, he, hr⟩ => .bundle he hr⟩
  cases h with
  | bundle he hr => exact ⟨_, he, hr⟩

end Element

namespace Sketch

/-- Made one after the other from nothing, one of the calls declares a control and answers with `r`. -/
def HandedOut (calls : List Call) (r : OutputRef) : Prop :=
  ∃ before name rate default after, calls = before ++ .control name rate default :: after ∧
    ((({} : Sketch).run before).perform (.control name rate default)).1 = .ok (some (.out r))

def HasSlot (s : Sketch) (r : OutputRef) : Prop := ∃ g, s.groups[r.node]? = some g ∧ r.output < g.count

theorem HandedOut.hasSlot {calls : List Call} {r : OutputRef} (h : HandedOut calls r) :
    (({} : Sketch).run calls).HasSlot r := by
  obtain ⟨before, name, rate, default, after, hcalls, hanswer⟩ := h
  obtain ⟨g, hg, -, hslot⟩ := (grouped_empty.run calls).group _ (mem_controls_run hcalls hanswer)
  exact ⟨g, hg, hslot⟩

end Sketch

end SoundGraph
