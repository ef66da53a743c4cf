import SoundGraph.Proofs.Expansion.Lockstep
import SoundGraph.Proofs.Sketch.References
import SoundGraph.Proofs.Traversal.Recorded

/-! Two walks in lockstep. The sketches have the same pending nodes, so the walks expand them in the same order; and
while a node that has a signal in the one walk has a twin of it in the other, what the arguments resolve to are twins,
and what the scripts emit as well. The sketches may differ in their controls: it is enough that a reference in an
argument is a twin of itself. -/

namespace SoundGraph

open Expanding Expansion

namespace Sketch

variable {s s' : Sketch}

theorem Complete.of_pending (h : s.Complete) (hpending : s'.pending = s.pending) : s'.Complete := by
  obtain ⟨pending, controls, groups⟩ := s'
  obtain rfl := hpending
  exact ⟨h.acyclic, h.inScope, h.defined⟩

theorem argsOf_of_pending (h : s'.pending = s.pending) (id : Nat) : s'.argsOf id = s.argsOf id := by
  rw [argsOf, argsOf, h]

theorem postOrder_of_pending (h : s'.pending = s.pending) (hs : s.Complete) (hs' : s'.Acyclic) :
    s'.postOrder hs' = s.postOrder hs.acyclic := by
  have hdeps : ∀ id < s.size, s'.dependencies id = s.dependencies id := fun id _ => by
    rw [dependencies, dependencies, argsOf_of_pending h]
  have hsize : s'.size = s.size := congrArg Array.size h
  rw [postOrder, postOrder, hsize]
  exact foldl_congr_of_mem (fun done id hid => visit_congr hdeps hs.inScope (List.mem_range.1 hid) done) []

end Sketch

namespace Lockstep

/-- Where the first walk has a signal, the second one has a twin of it. -/
structure Carries (l : Lockstep) (p p' : Array Progress) : Prop where
  size : p'.size = p.size
  done : ∀ (j : Nat) v, p[j]? = some (.done v) → ∃ v', p'[j]? = some (.done v') ∧ v.Twins l.Twin v'

structure Suits (l : Lockstep) (s s' : Sketch) : Prop where
  pending : s'.pending = s.pending
  plain : ∀ node ∈ s.pending.toList, node.generator.Plain
  tracked : ∀ node ∈ s.pending.toList, node.generator.hook = none → l.Tracked node.generator.descriptor.flags
  refers : ∀ node ∈ s.pending.toList, ∀ args, node.args = some args → ∀ e ∈ args, ∀ r, e.Refers r → l.Twin r.node r.node

variable {l : Lockstep} {s s' : Sketch} {p p' : Array Progress} {x y : Expansion} {limit id : Nat}

theorem carries_start (l : Lockstep) (n : Nat) :
    l.Carries (Array.replicate n .waiting) (Array.replicate n .waiting) := by
  refine ⟨rfl, fun j v hv => ?_⟩
  rw [Array.getElem?_replicate] at hv
  split at hv <;> cases hv

theorem Carries.record (h : l.Carries p p') {v v' : Signal} (hv : v.Twins l.Twin v') (id : Nat) :
    l.Carries (p.setIfInBounds id (.done v)) (p'.setIfInBounds id (.done v')) := by
  refine ⟨by rw [Array.size_setIfInBounds, Array.size_setIfInBounds, h.size], fun j w hw => ?_⟩
  rw [Array.getElem?_setIfInBounds] at hw ⊢
  split at hw
  · next heq =>
    rw [if_pos heq, h.size]
    split at hw
    · next hlt =>
      cases hw
      exact ⟨v', if_pos hlt, hv⟩
    · cases hw
  · next hne =>
    rw [if_neg hne]
    exact h.done j w hw

/-- By induction on the element. -/
theorem resolve_twins (hat : l.At x y) (hp : l.Carries p p') {e : Element} {signal : Signal}
    (hrefers : ∀ r, e.Refers r → l.Twin r.node r.node) (h : s.resolve p x e = .ok signal) :
    ∃ signal', s'.resolve p' y e = .ok signal' ∧ signal.Twins l.Twin signal' := by
  induction e using Element.induction generalizing signal with
  | const v =>
    cases h
    exact ⟨.const v, rfl, .const v⟩
  | out r =>
    obtain ⟨rate, hrate, h⟩ := bind_eq_ok_iff.1 h
    cases h
    have htwins : r.Twins l.Twin r := ⟨hrefers r .out, rfl⟩
    exact ⟨.out r, bind_eq_ok_iff.2 ⟨rate, l.outputRate hat htwins hrate, rfl⟩, .out htwins⟩
  | pending id =>
    rw [Sketch.resolve] at h
    split at h
    · next value hvalue =>
      cases h
      obtain ⟨signal', hsignal', htwins⟩ := hp.done id signal hvalue
      exact ⟨signal', by rw [Sketch.resolve, hsignal'], htwins⟩
    · cases h
  | bundle es ih =>
    obtain ⟨signals, hall, h⟩ := bind_eq_ok_iff.1 h
    cases h
    rw [Sketch.resolveAll_eq_mapM, mapM_eq_ok_iff] at hall
    obtain ⟨signals', hall', htwins⟩ := exists_forall₂_of_forall₂ hall fun e he v =>
      ih e he fun r hr => hrefers r (.bundle he hr)
    rw [← mapM_eq_ok_iff, ← Sketch.resolveAll_eq_mapM] at hall'
    exact ⟨.bundle signals', bind_eq_ok_iff.2 ⟨signals', hall', rfl⟩, .bundle htwins⟩

theorem Suits.mirrors_expandNode (h : l.Suits s s') (hp : l.Carries p p') {node : PendingNode} {args : List Element}
    (hargs : s.argsOf id = .ok (node, args)) :
    l.Mirrors limit (s.expandNode limit p node args) (s'.expandNode limit p' node args) (Signal.Twins l.Twin) := by
  obtain ⟨hnode, hsome⟩ := Sketch.argsOf_eq_ok_iff.1 hargs
  have hmem := Array.mem_toList_iff.2 (Array.mem_of_getElem? hnode)
  have hcheck : l.Mirrors limit (check fun x => s.resolveAll p x args) (check fun y => s'.resolveAll p' y args)
      (List.Forall₂ (Signal.Twins l.Twin)) := by
    refine mirrors_check fun hat hall => ?_
    rw [Sketch.resolveAll_eq_mapM, mapM_eq_ok_iff] at hall
    obtain ⟨signals', hall', htwins⟩ := exists_forall₂_of_forall₂ hall fun e he v hv =>
      resolve_twins hat hp (h.refers node hmem args hsome e he) hv
    rw [← mapM_eq_ok_iff, ← Sketch.resolveAll_eq_mapM] at hall'
    exact ⟨signals', hall', htwins⟩
  refine hcheck.bind (fun _ => widens_perform _) fun signals signals' htwins => ?_
  exact (mirrors_script (h.plain node hmem) htwins).imp fun _ _ hvalue => hvalue (h.tracked node hmem)

theorem Suits.mirrors_expandOne (h : l.Suits s s') (hp : l.Carries p p') (id : Nat) :
    l.Mirrors limit (s.expandOne limit p id) (s'.expandOne limit p' id) l.Carries := by
  intro x y q x' hat hok hw
  obtain ⟨node, args, value, hargs, hvalue, rfl⟩ := Sketch.run_expandOne_eq_ok_iff.1 hok
  rw [Sketch.expandOne_of_argsOf ((Sketch.argsOf_of_pending h.pending id).trans hargs)]
  have hnode := h.mirrors_expandNode hp hargs x y value x' hat hvalue hw
  exact hnode.bind fun value' y' hdone => ⟨hp.record hdone.1 id, hdone.2⟩

/-- Where the first walk comes to its end, the second one does, or it stops for the limit. -/
theorem Suits.mirrors_walkAll (h : l.Suits s s') (hs : s.Complete) :
    l.Mirrors limit (s.walkAll limit) (s'.walkAll limit) l.Carries := by
  have hs' := hs.of_pending h.pending
  have hwalk : s.walkAll limit = s.expandInOrder limit (s.postOrder hs.acyclic) :=
    funext (Sketch.walkAll_eq_expandInOrder hs.acyclic hs.inScope hs.defined)
  have hwalk' : s'.walkAll limit = s'.expandInOrder limit (s'.postOrder hs'.acyclic) :=
    funext (Sketch.walkAll_eq_expandInOrder hs'.acyclic hs'.inScope hs'.defined)
  have hsize : s'.size = s.size := congrArg Array.size h.pending
  rw [hwalk, hwalk', Sketch.postOrder_of_pending h.pending hs, Sketch.expandInOrder, Sketch.expandInOrder, hsize]
  refine mirrors_foldlM Sketch.widens_expandOne ?_ (List.forall₂_same.2 fun _ _ => rfl) (carries_start l s.size)
  rintro p p' id _ hp rfl
  exact h.mirrors_expandOne hp id

end Lockstep

end SoundGraph
