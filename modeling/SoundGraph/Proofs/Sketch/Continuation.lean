import SoundGraph.Proofs.Expansion.Sound
import SoundGraph.Proofs.Sketch.Calls
import SoundGraph.Proofs.Traversal.Dependency

/-! Sketches that go on where another one stops. Calls that declare no control add pending nodes behind those
that are there. They could only change an old node by giving it arguments, and in a sketch that can be
compiled every node has its arguments. -/

namespace SoundGraph.Sketch

/-- The sketch `s'` has all of `s`, the same controls and more pending nodes. -/
structure Continues (s s' : Sketch) : Prop where
  pending : s.pending.toList <+: s'.pending.toList
  controls : s'.controls = s.controls
  groups : s'.groups = s.groups

variable {s s' : Sketch}

theorem Continues.refl (s : Sketch) : s.Continues s := ⟨List.prefix_refl _, rfl, rfl⟩

theorem Continues.record (h : s.Continues s') (node : PendingNode) : s.Continues (s'.record node).2 :=
  ⟨h.pending.trans (prefix_push _ _), h.controls, h.groups⟩

/-- Arguments go to a node without any, which is none of the old ones. -/
theorem Continues.define (h : s.Continues s') (hdefined : s.FullyDefined) {id : Nat} {args : List Element}
    {s'' : Sketch} (hok : s'.define id args = .ok s'') : s.Continues s'' := by
  obtain ⟨hlt, hnone, -, rfl⟩ := eq_of_define hok
  have hge : s.pending.toList.length ≤ id := by
    by_contra hold
    rw [Array.length_toList] at hold
    have hsame := getElem?_mono h.pending (Array.getElem?_eq_getElem (Nat.lt_of_not_le hold))
    rw [Array.getElem?_eq_getElem hlt, Option.some.injEq] at hsame
    have hargs := hdefined _ (Array.getElem_mem_toList (Nat.lt_of_not_le hold))
    rw [← hsame, hnone] at hargs
    cases hargs
  refine ⟨?_, h.controls, h.groups⟩
  obtain ⟨rest, hrest⟩ := h.pending
  rw [Array.toList_set, ← hrest, List.set_append_right _ _ hge]
  exact List.prefix_append _ _

theorem Continues.perform (h : s.Continues s') (hdefined : s.FullyDefined) {call : Call}
    (hcall : ∀ name rate default, call ≠ .control name rate default) : s.Continues (s'.perform call).2 := by
  refine perform_keeps h call (fun g rule args e s'' hok => ?_) (fun g rule => h.record _)
    (fun id args s'' hok => h.define hdefined hok)
    fun name rate default e s'' heq _ => absurd heq (hcall name rate default)
  obtain ⟨_, -, hok⟩ := bind_eq_ok_iff.1 hok
  cases hok
  exact h.record _

theorem Continues.run (h : s.Continues s') (hdefined : s.FullyDefined) {calls : List Call}
    (hcalls : ∀ call ∈ calls, ∀ name rate default, call ≠ .control name rate default) :
    s.Continues (s'.run calls) := by
  induction calls generalizing s' with
  | nil => exact h
  | cons call calls ih =>
    obtain ⟨hcall, hcalls⟩ := List.forall_mem_cons.1 hcalls
    exact ih (h.perform hdefined hcall) hcalls

theorem Continues.size_le (h : s.Continues s') : s.size ≤ s'.size := by
  simpa [size] using h.pending.length_le

theorem Continues.argsOf (h : s.Continues s') {id : Nat} {node : PendingNode} {args : List Element}
    (hargs : s.argsOf id = .ok (node, args)) : s'.argsOf id = .ok (node, args) := by
  obtain ⟨hnode, hargs⟩ := argsOf_eq_ok_iff.1 hargs
  exact argsOf_eq_ok_iff.2 ⟨getElem?_mono h.pending hnode, hargs⟩

end SoundGraph.Sketch
