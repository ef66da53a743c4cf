import SoundGraph.Proofs.Sketch.Calls
import SoundGraph.Proofs.Traversal.Dependency

/-! Calls record arguments only if every pending number in them is known, and no call takes a pending node
away. So in a sketch made by calls every dependency is a node of the sketch. -/

namespace SoundGraph

namespace Element

theorem fault?_of_faultAmong? {known : Nat} {es : List Element} (h : faultAmong? known es = none) :
    ∀ e ∈ es, e.fault? known = none := by
  induction es with
  | nil => exact List.forall_mem_nil _
  | cons e es ih =>
    rw [faultAmong?, Option.orElse_eq_orElse, Option.orElse_eq_or, Option.or_eq_none_iff] at h
    exact List.forall_mem_cons.2 ⟨h.2, ih h.1⟩

theorem Mentions.lt {known j : Nat} {e : Element} (h : e.Mentions j) (hok : e.fault? known = none) :
    j < known := by
  induction h with
  | pending =>
    rw [fault?] at hok
    by_contra hge
    rw [if_neg hge] at hok
    cases hok
  | @bundle e channels hmem _ ih =>
    rw [fault?] at hok
    split at hok
    · cases hok
    · exact ih (fault?_of_faultAmong? hok e hmem)

end Element

namespace Sketch

variable {s s' : Sketch}

def Scoped (s : Sketch) : Prop := ∀ i j, s.DependsOn i j → j < s.size

theorem scoped_empty : ({} : Sketch).Scoped := by
  rintro i j ⟨node, args, hp, -⟩
  simp at hp

theorem lt_size_of_checkArgs {d : Descriptor} {args : List Element} (h : s.checkArgs d args = .ok ()) :
    ∀ e ∈ args, ∀ j, e.Mentions j → j < s.size := by
  intro e he j hj
  unfold checkArgs at h
  split at h
  · cases h
  · split at h
    · cases h
    · next hok => exact hj.lt (Element.fault?_of_faultAmong? hok e he)

/-- One more pending node, its arguments checked. -/
theorem Scoped.record (h : s.Scoped) {node : PendingNode}
    (hargs : ∀ args, node.args = some args → ∀ e ∈ args, ∀ j, e.Mentions j → j < s.size) :
    (s.record node).2.Scoped := by
  rintro i j ⟨n, args, hp, ha, e, he, hj⟩
  rw [size, Sketch.record, Array.size_push]
  rw [Sketch.record, Array.getElem?_push] at hp
  split at hp
  · cases hp
    exact Nat.lt_succ_of_lt (hargs args ha e he j hj)
  · exact Nat.lt_succ_of_lt (h i j ⟨n, args, hp, ha, e, he, hj⟩)

theorem Scoped.addWith (h : s.Scoped) {g : Generator} {rule : RateRule} {args : List Element}
    {handle : Element} (hok : s.addWith g rule args = .ok (handle, s')) : s'.Scoped := by
  obtain ⟨_, hcheck, hok⟩ := bind_eq_ok_iff.1 hok
  cases hok
  refine h.record fun args' ha => ?_
  cases ha
  exact lt_size_of_checkArgs hcheck

theorem Scoped.define (h : s.Scoped) {id : Nat} {args : List Element}
    (hok : s.define id args = .ok s') : s'.Scoped := by
  obtain ⟨hlt, -, hcheck, rfl⟩ := eq_of_define hok
  rintro i j ⟨n, args', hp, ha, e, he, hj⟩
  rw [size, Array.size_set]
  rw [Array.getElem?_set] at hp
  split at hp
  · cases hp
    cases ha
    exact lt_size_of_checkArgs hcheck e he j hj
  · exact h i j ⟨n, args', hp, ha, e, he, hj⟩

/-- A declaration has no arguments to check. -/
theorem Scoped.declare (h : s.Scoped) (g : Generator) (rule : RateRule) :
    (s.record ⟨g, rule, none⟩).2.Scoped :=
  h.record fun _ ha => by cases ha

/-- A control adds no pending node. -/
theorem Scoped.control (h : s.Scoped) {name : String} {rate : Rate} {default : Sample} {handle : Element}
    (hok : s.control name rate default = .ok (handle, s')) : s'.Scoped := by
  obtain ⟨-, -, -, rfl⟩ := eq_of_control hok
  exact h

theorem Scoped.run (h : s.Scoped) (calls : List Call) : (s.run calls).Scoped :=
  run_keeps (fun _ h call => perform_keeps h call (fun _ _ _ _ _ hok => h.addWith hok) h.declare
    (fun _ _ _ hok => h.define hok) fun _ _ _ _ _ _ hok => h.control hok) h calls

end Sketch

end SoundGraph
