import SoundGraph.Proofs.Expansion.Rejection
import SoundGraph.Proofs.Success
import SoundGraph.Traversal

/-! How the elements in the arguments of a node resolve. Only the entries for nodes that are done count, so
two progress tables that agree on them resolve everything alike. -/

namespace SoundGraph.Sketch

variable {s : Sketch} {limit : Nat} {x : Expansion}

theorem resolveAll_eq_mapM (progress : Array Progress) (x : Expansion) (es : List Element) :
    s.resolveAll progress x es = es.mapM (s.resolve progress x) := by
  induction es with
  | nil => rfl
  | cons e es ih => rw [resolveAll, ih, List.mapM_cons]

theorem resolveAll_congr {s s' : Sketch} {p q : Array Progress} {es : List Element}
    (h : ∀ e ∈ es, s.resolve p x e = s'.resolve q x e) : s.resolveAll p x es = s'.resolveAll q x es := by
  induction es with
  | nil => rfl
  | cons e es ih =>
    obtain ⟨he, hes⟩ := List.forall_mem_cons.1 h
    rw [resolveAll, resolveAll, he, ih hes]

/-- An element whose pending nodes are done is only rejected for a reference. -/
theorem ofInstance_resolve {progress : Array Progress} {x : Expansion} {e : Element}
    (h : ∀ j ∈ e.pendings, ∃ v, progress[j]? = some (.done v)) {err : CompileError}
    (herr : s.resolve progress x e = .error err) : err.ofInstance = true := by
  induction e using Element.induction generalizing err with
  | const v => cases herr
  | out r =>
    rcases bind_eq_error_iff.1 herr with hr | ⟨rate, -, hr⟩
    · exact Expansion.ofInstance_outputRate hr
    · cases hr
  | pending id =>
    obtain ⟨v, hv⟩ := h id (List.mem_singleton_self id)
    rw [resolve, hv] at herr
    cases herr
  | bundle es ih =>
    rcases bind_eq_error_iff.1 herr with hall | ⟨signals, -, hall⟩
    · rw [resolveAll_eq_mapM] at hall
      obtain ⟨e, he, herr⟩ := exists_of_mapM_eq_error hall
      refine ih e he (fun j hj => h j ?_) herr
      rw [Element.pendings, Element.pendingsOf_eq, List.mem_flatMap]
      exact ⟨e, he, hj⟩
    · cases hall

/-- The arguments of a node, when all that they mention is done. -/
theorem ofInstance_resolveAll {progress : Array Progress} {x : Expansion} {args : List Element}
    (h : ∀ j ∈ Element.pendingsOf args, ∃ v, progress[j]? = some (.done v)) {err : CompileError}
    (herr : s.resolveAll progress x args = .error err) : err.ofInstance = true := by
  rw [resolveAll_eq_mapM] at herr
  obtain ⟨e, he, herr⟩ := exists_of_mapM_eq_error herr
  refine ofInstance_resolve (fun j hj => h j ?_) herr
  rw [Element.pendingsOf_eq, List.mem_flatMap]
  exact ⟨e, he, hj⟩

structure SameDone (p q : Array Progress) : Prop where
  size : p.size = q.size
  done : ∀ (j : Nat) (v : Signal), p[j]? = some (.done v) ↔ q[j]? = some (.done v)

namespace SameDone

variable {p q : Array Progress} {id : Nat}

theorem refl (p : Array Progress) : SameDone p p := ⟨rfl, fun _ _ => .rfl⟩

/-- A waiting node that gets on the path has no signal before or after. -/
theorem onPath (h : SameDone p q) (hlt : id < q.size) (hwaits : q[id] = .waiting) :
    SameDone p (q.set id .onPath) := by
  refine ⟨by rw [Array.size_set]; exact h.size, fun j v => ?_⟩
  rw [h.done, Array.getElem?_set hlt]
  split
  · next heq => simp [← heq, hlt, hwaits]
  · rfl

theorem record (h : SameDone p q) (hlt : id < q.size) (value : Signal) :
    SameDone (p.setIfInBounds id (.done value)) (q.set id (.done value)) := by
  refine ⟨by simp [h.size], fun j v => ?_⟩
  rw [Array.getElem?_set hlt, Array.getElem?_setIfInBounds]
  split
  · rw [if_pos (h.size ▸ hlt)]
  · exact h.done j v

/-- Where every node is done, nothing is left to differ. -/
theorem eq (h : SameDone p q) (hall : ∀ j < q.size, ∃ v, q[j]? = some (.done v)) : p = q := by
  refine Array.ext_getElem? fun j => ?_
  rcases Nat.lt_or_ge j q.size with hlt | hge
  · obtain ⟨v, hv⟩ := hall j hlt
    rw [hv, (h.done j v).2 hv]
  · rw [Array.getElem?_eq_none hge, Array.getElem?_eq_none (h.size ▸ hge)]

theorem resolve_eq (h : SameDone p q) (x : Expansion) (e : Element) :
    s.resolve p x e = s.resolve q x e := by
  induction e using Element.induction with
  | const v => rfl
  | out r => rfl
  | pending j =>
    have hj := h.done j
    simp only [resolve]
    split
    · next v hv => rw [(hj v).1 hv]
    · next hp =>
      split
      · next v hv => exact absurd ((hj v).2 hv) (hp v)
      · rfl
  | bundle es ih => rw [resolve, resolve, resolveAll_congr ih]

theorem expandNode_eq (h : SameDone p q) (node : PendingNode) (args : List Element) :
    s.expandNode limit p node args = s.expandNode limit q node args := by
  have hargs : ∀ x, s.resolveAll p x args = s.resolveAll q x args :=
    fun x => resolveAll_congr fun e _ => h.resolve_eq x e
  simp only [expandNode, hargs]

end SameDone

end SoundGraph.Sketch
