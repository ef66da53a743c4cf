import SoundGraph.Proofs.Sketch.Continuation
import SoundGraph.Proofs.Traversal.Growth
import SoundGraph.Proofs.Traversal.Replay

/-! The walk over a sketch that continues another one. The order of the longer sketch begins with that of the
shorter one, and the nodes of the shorter one are expanded as they were, since they mention each other only.
So the walk comes through the table that the shorter walk has ended with. -/

namespace SoundGraph.Sketch

open Expanding

variable {s s' : Sketch} {limit : Nat}

theorem Continues.dependencies_eq (h : s.Continues s') (hdefined : s.FullyDefined) {id : Nat} (hid : id < s.size) :
    s'.dependencies id = s.dependencies id := by
  obtain ⟨⟨node, args⟩, hargs⟩ := hdefined.exists_argsOf hid
  rw [dependencies_of_argsOf hargs, dependencies_of_argsOf (h.argsOf hargs)]

theorem foldl_congr_of_mem {α β : Type} {f g : β → α → β} {as : List α} (h : ∀ b, ∀ a ∈ as, f b a = g b a) (b : β) :
    as.foldl f b = as.foldl g b := by
  induction as generalizing b with
  | nil => rfl
  | cons a as ih =>
    rw [List.foldl_cons, List.foldl_cons, h b a List.mem_cons_self]
    exact ih (fun b a ha => h b a (List.mem_cons_of_mem _ ha)) _

section Order

variable {hs : s.Acyclic} {hs' : s'.Acyclic}

/-- By induction along the dependencies, which stay among the old nodes. -/
theorem visit_congr (h : ∀ id < s.size, s'.dependencies id = s.dependencies id) (hscoped : s.Scoped) {id : Nat}
    (hid : id < s.size) (done : List Nat) : s'.visit hs' done id = s.visit hs done id := by
  induction id using hs.wellFounded.induction generalizing done with
  | _ id ih =>
    by_cases hmem : id ∈ done
    · rw [visit_of_mem hmem, visit_of_mem hmem]
    · rw [visit_of_not_mem hmem, visit_of_not_mem hmem, h id hid]
      congr 1
      refine foldl_congr_of_mem (fun done j hj => ?_) done
      have hdep := mem_dependencies_iff.1 hj
      exact ih j hdep (hscoped id j hdep) done

theorem Continues.visit_eq (h : s.Continues s') (hscoped : s.Scoped) (hdefined : s.FullyDefined) {id : Nat}
    (hid : id < s.size) (done : List Nat) : s'.visit hs' done id = s.visit hs done id :=
  visit_congr (fun _ hid => h.dependencies_eq hdefined hid) hscoped hid done

theorem Continues.postOrder_prefix (h : s.Continues s') (hscoped : s.Scoped) (hdefined : s.FullyDefined) :
    s.postOrder hs <+: s'.postOrder hs' := by
  obtain ⟨k, hk⟩ := Nat.exists_eq_add_of_le h.size_le
  have hfirst : (List.range s.size).foldl (s'.visit hs') [] = s.postOrder hs :=
    foldl_congr_of_mem (fun done id hid => h.visit_eq hscoped hdefined (List.mem_range.1 hid) done) []
  rw [← hfirst, postOrder, hk, List.range_add, List.foldl_append]
  exact prefix_foldl_visit _ _

end Order

section Run

variable {p p' : Array Progress} {x x' : Expansion}

/-- What resolves goes on doing so while what it mentions keeps its signals and the table only grows. -/
theorem resolve_mono {e : Element} {signal : Signal}
    (hp : ∀ j v, e.Mentions j → p[j]? = some (.done v) → p'[j]? = some (.done v)) (hx : x.Within x')
    (h : s.resolve p x e = .ok signal) : s'.resolve p' x' e = .ok signal := by
  induction e using Element.induction generalizing signal with
  | const v => exact h
  | out source =>
    obtain ⟨rate, hrate, h⟩ := bind_eq_ok_iff.1 h
    exact bind_eq_ok_iff.2 ⟨rate, hx.outputRate hrate, h⟩
  | pending id =>
    rw [resolve] at h ⊢
    split at h
    · next value hvalue =>
      rw [hp id value .pending hvalue]
      exact h
    · cases h
  | bundle es ih =>
    obtain ⟨signals, hall, h⟩ := bind_eq_ok_iff.1 h
    rw [resolveAll_eq_mapM] at hall
    refine bind_eq_ok_iff.2 ⟨signals, ?_, h⟩
    rw [resolveAll_eq_mapM]
    exact mapM_mono (fun e he signal => ih e he fun j v hj => hp j v (.bundle he hj)) hall

theorem expandNode_mono (hp : p.toList <+: p'.toList) {node : PendingNode} {args : List Element} {value : Signal}
    (h : s.expandNode limit p node args x = .ok value x') : s'.expandNode limit p' node args x = .ok value x' := by
  obtain ⟨signals, x₁, hcheck, hperform⟩ := run_bind_eq_ok_iff.1 h
  obtain ⟨hall, rfl⟩ := run_check_eq_ok_iff.1 hcheck
  refine run_bind_eq_ok_iff.2 ⟨signals, x₁, run_check_eq_ok_iff.2 ⟨?_, rfl⟩, hperform⟩
  rw [resolveAll_eq_mapM] at hall ⊢
  exact mapM_mono (fun _ _ _ => resolve_mono (fun _ _ _ => getElem?_mono hp) (.refl _)) hall

/-- An entry that is there is written alike, one that is not stays outside. -/
theorem prefix_setIfInBounds (hp : p.toList <+: p'.toList) (id : Nat) (entry : Progress) :
    (p.setIfInBounds id entry).toList <+: (p'.setIfInBounds id entry).toList := by
  obtain ⟨rest, hrest⟩ := hp
  rw [Array.toList_setIfInBounds, Array.toList_setIfInBounds, ← hrest, List.set_append]
  split
  · exact List.prefix_append _ _
  · next hge =>
    rw [List.set_eq_of_length_le (Nat.le_of_not_lt hge)]
    exact List.prefix_append _ _

/-- A node of the shorter sketch, expanded in the longer one. -/
theorem Continues.expandOne (h : s.Continues s') (hp : p.toList <+: p'.toList) {id : Nat} {q : Array Progress}
    (hok : s.expandOne limit p id x = .ok q x') :
    ∃ q', s'.expandOne limit p' id x = .ok q' x' ∧ q.toList <+: q'.toList := by
  obtain ⟨node, args, value, hargs, hvalue, rfl⟩ := run_expandOne_eq_ok_iff.1 hok
  refine ⟨p'.setIfInBounds id (.done value), ?_, prefix_setIfInBounds hp id _⟩
  exact run_expandOne_eq_ok_iff.2 ⟨node, args, value, h.argsOf hargs, expandNode_mono hp hvalue, rfl⟩

theorem Continues.foldlM_expandOne (h : s.Continues s') {ids : List Nat} {q : Array Progress}
    (hp : p.toList <+: p'.toList) (hok : ids.foldlM (s.expandOne limit) p x = .ok q x') :
    ∃ q', ids.foldlM (s'.expandOne limit) p' x = .ok q' x' ∧ q.toList <+: q'.toList := by
  induction ids generalizing p p' x with
  | nil =>
    cases hok
    exact ⟨p', rfl, hp⟩
  | cons id ids ih =>
    rw [List.foldlM_cons] at hok ⊢
    obtain ⟨p₁, x₁, hone, hrest⟩ := run_bind_eq_ok_iff.1 hok
    obtain ⟨p₁', hone', hp₁⟩ := h.expandOne hp hone
    obtain ⟨q', hrest', hq⟩ := ih hp₁ hrest
    exact ⟨q', run_bind_eq_ok_iff.2 ⟨p₁', x₁, hone', hrest'⟩, hq⟩

theorem leads_expandOne_growsTo (p : Array Progress) (id : Nat) :
    (s.expandOne limit p id).Leads Expansion.GrowsTo :=
  composes_growsTo.bind (leads_check .refl _) fun (node, args) _ =>
    composes_growsTo.bind (leads_expandNode_growsTo p node args) fun _ _ => composes_growsTo.pure _

end Run

/-- The table of the longer walk starts with that of the shorter one. -/
theorem Continues.within_of_walkAll (h : s.Continues s') {p p' : Array Progress} {x y y' : Expansion}
    (hx : x.Sound) (hok : s.walkAll limit x = .ok p y) (hok' : s'.walkAll limit x = .ok p' y') :
    y.Within y' := by
  obtain ⟨hacyclic, hdefined⟩ := acyclic_of_walkAll hok
  obtain ⟨hacyclic', hdefined'⟩ := acyclic_of_walkAll hok'
  have hscoped := scoped_of_walkAll hok
  have hsound : y.Sound := ((leads_walkAll_growsTo x).of_ok hok hx).sound
  rw [walkAll_eq_expandInOrder hacyclic hscoped hdefined] at hok
  rw [walkAll_eq_expandInOrder hacyclic' (scoped_of_walkAll hok') hdefined'] at hok'
  obtain ⟨rest, hrest⟩ : s.postOrder hacyclic <+: s'.postOrder hacyclic' := h.postOrder_prefix hscoped hdefined
  rw [← hrest, expandInOrder_append] at hok'
  obtain ⟨q, y₁, hfirst, hlater⟩ := run_bind_eq_ok_iff.1 hok'
  have hwaiting : (Array.replicate s.size Progress.waiting).toList <+:
      (Array.replicate s'.size Progress.waiting).toList := by
    rw [Array.toList_replicate, Array.toList_replicate, ← Nat.add_sub_cancel' h.size_le, List.replicate_add]
    exact List.prefix_append _ _
  obtain ⟨q', hsame, -⟩ := h.foldlM_expandOne hwaiting hok
  have heq : y₁ = y := by
    rw [expandInOrder, hsame] at hfirst
    cases hfirst
    rfl
  subst heq
  have hgrows : (rest.foldlM (s'.expandOne limit) q).Leads Expansion.GrowsTo :=
    composes_growsTo.foldlM leads_expandOne_growsTo rest q
  exact ((hgrows y₁).of_ok hlater hsound).toWithin

end SoundGraph.Sketch
