import SoundGraph.Proofs.Sketch.Scope
import SoundGraph.Proofs.Traversal.Threaded

/-! Where the walk over a sketch can stop. If every dependency is a node of the sketch, the numbers that the walk has
ahead of it are those of nodes, and every one has an entry in the progress table. So it stops at a node without
arguments, at a cycle, or because an expansion fails. -/

namespace SoundGraph.Sketch

variable {s : Sketch} {limit : Nat} {w w' : Walk} {x : Expansion}

structure InRange (s : Sketch) (w : Walk) : Prop where
  roots : ∀ root ∈ w.roots, root < s.size
  stack : ∀ step ∈ w.stack, Step.id step < s.size

theorem inRange_start (s : Sketch) (x : Expansion) : s.InRange (s.start x) :=
  ⟨fun _ hroot => List.mem_range.1 hroot, List.forall_mem_nil _⟩

theorem InRange.turn (h : s.InRange w) (hscoped : s.Scoped) (ht : s.Turn limit w w') : s.InRange w' := by
  cases ht with
  | root =>
    obtain ⟨hroot, hroots⟩ := List.forall_mem_cons.1 h.roots
    exact ⟨hroots, List.forall_mem_singleton.2 hroot⟩
  | skip => exact ⟨h.roots, (List.forall_mem_cons.1 h.stack).2⟩
  | enter hargs hlt hwaits hstack =>
    obtain ⟨rfl, -⟩ := scheduleAll_eq_ok hstack
    obtain ⟨hid, hstack⟩ := List.forall_mem_cons.1 h.stack
    refine ⟨h.roots, List.forall_mem_append.2 ⟨fun step hstep => ?_, List.forall_mem_cons.2 ⟨hid, hstack⟩⟩⟩
    obtain ⟨j, hj, rfl⟩ := List.mem_map.1 hstep
    exact hscoped _ j ((mem_pendingsOf_iff hargs).1 (List.mem_of_mem_filter hj))
  | expand => exact ⟨h.roots, (List.forall_mem_cons.1 h.stack).2⟩

theorem inRange_of_reaches (hscoped : s.Scoped) (hr : s.Reaches limit (s.start x) w) : s.InRange w := by
  induction hr with
  | refl => exact inRange_start s x
  | tail _ ht ih => exact ih.turn hscoped ht

theorem argsOf_eq_error {id : Nat} (hid : id < s.size) {e : CompileError} (h : s.argsOf id = .error e) :
    ∃ node, s.pending[id]? = some node ∧ node.args = none ∧ e = .undefined node.generator.name id := by
  have hnode : s.pending[id]? = some s.pending[id] := Array.getElem?_eq_getElem hid
  rw [argsOf, hnode] at h
  dsimp only at h
  split at h
  · next hargs =>
    cases h
    exact ⟨_, hnode, hargs, rfl⟩
  · cases h

/-- Of the ways to halt, these are left when every dependency is a node. -/
theorem cause_of_halts (hscoped : s.Scoped) (hr : s.Reaches limit (s.start x) w) {e : Abort} {x' : Expansion}
    (hh : s.Halts limit w e x') :
    (∃ id node, s.pending[id]? = some node ∧ node.args = none ∧
      e = .rejected (.undefined node.generator.name id)) ∨
    (∃ id node, s.pending[id]? = some node ∧ s.OnCycle id ∧ e = .rejected (.cyclic node.generator.name)) ∨
    ∃ id stack node args, w.stack = .finish id :: stack ∧ s.argsOf id = .ok (node, args) ∧
      s.expandNode limit w.progress node args w.table = .error e x' := by
  have hw := (threaded_start s x).reaches hr
  have hin := inRange_of_reaches hscoped hr
  cases hh with
  | undefined step hargs =>
    obtain ⟨node, hnode, hnone, rfl⟩ := argsOf_eq_error (hin.stack step List.mem_cons_self) hargs
    exact .inl ⟨_, node, hnode, hnone, rfl⟩
  | entered hargs hpath => exact absurd hpath (hw.not_onPath rfl)
  | mentioned hargs hlt hwaits hstack =>
    obtain ⟨j, hj, hcause⟩ := scheduleAll_eq_error hstack
    rw [mem_pendingsOf_iff hargs] at hj
    have hj' : j < s.size := hscoped _ j hj
    rcases hcause with ⟨hpath, rfl⟩ | ⟨hnone, -⟩
    · have hnode : s.pending[j]? = some s.pending[j] := Array.getElem?_eq_getElem hj'
      refine .inr (.inl ⟨j, _, hnode, hw.onCycle_of_mentioned rfl hlt hj hpath, ?_⟩)
      rw [label, hnode]
    · have hsize := hw.size
      have hge := Array.getElem?_eq_none_iff.1 hnone
      rw [Array.size_set] at hge
      dsimp only at hsize
      omega
  | failed hargs hvalue => exact .inr (.inr ⟨_, _, _, _, rfl, hargs, hvalue⟩)
  | missing step hge =>
    have hsize := hw.size
    have hlt := hin.stack step List.mem_cons_self
    dsimp only at hsize
    omega

end SoundGraph.Sketch
