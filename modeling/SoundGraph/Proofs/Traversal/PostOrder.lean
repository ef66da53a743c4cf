import SoundGraph.Proofs.Sketch.Scope
import SoundGraph.Proofs.Traversal.Threaded

/-! The post-order of a sketch without cycles: each node after all that it mentions, from the left, and the
roots as they were recorded. It is a recursion along dependencies, with neither a stack nor colours. Every
node occurs in it once, behind its dependencies. -/

namespace SoundGraph.Sketch

open Relation

/-- Whatever is mentioned has been expanded too. -/
theorem scoped_of_walkAll {s : Sketch} {limit : Nat} {x x' : Expansion} {progress : Array Progress}
    (h : s.walkAll limit x = .ok progress x') : s.Scoped := by
  intro i j hij
  obtain ⟨ids, hordered, hall⟩ := ordered_of_walkAll h
  obtain ⟨p, hargs⟩ := hordered.defined j (hordered.closed (hall i hij.lt_size) (.single hij))
  exact lt_of_argsOf hargs

/-- The nodes met once `id` is visited, when those in `done` have been met before. -/
def visit (s : Sketch) (h : s.Acyclic) (done : List Nat) (id : Nat) : List Nat :=
  if id ∈ done then done
  else (s.dependencies id).attach.foldl (fun done j => s.visit h done j.1) done ++ [id]
termination_by h.wellFounded.wrap id
decreasing_by exact mem_dependencies_iff.1 j.2

def postOrder (s : Sketch) (h : s.Acyclic) : List Nat := (List.range s.size).foldl (s.visit h) []

variable {s : Sketch} {h : s.Acyclic} {done ids : List Nat} {id j : Nat}

theorem visit_of_mem (hid : id ∈ done) : s.visit h done id = done := by
  rw [visit, if_pos hid]

theorem visit_of_not_mem (hid : id ∉ done) :
    s.visit h done id = (s.dependencies id).foldl (s.visit h) done ++ [id] := by
  rw [visit, if_neg hid, List.foldl_attach]

/-- Visiting only adds nodes at the end; so do all visits of a list. -/
theorem prefix_visit (done : List Nat) (id : Nat) : done <+: s.visit h done id := by
  induction id using h.wellFounded.induction generalizing done with
  | _ id ih =>
    by_cases hid : id ∈ done
    · rw [visit_of_mem hid]
    · rw [visit_of_not_mem hid]
      refine List.IsPrefix.trans ?_ (List.prefix_append _ _)
      exact List.foldlRecOn _ _ (List.prefix_refl _) fun done' hpre j hj =>
        hpre.trans (ih j (mem_dependencies_iff.1 hj) done')

theorem prefix_foldl_visit (done ids : List Nat) : done <+: ids.foldl (s.visit h) done :=
  List.foldlRecOn _ _ (List.prefix_refl _) fun done' hpre j _ => hpre.trans (prefix_visit done' j)

theorem mem_visit (done : List Nat) (id : Nat) : id ∈ s.visit h done id := by
  by_cases hid : id ∈ done
  · rwa [visit_of_mem hid]
  · rw [visit_of_not_mem hid]
    exact List.mem_append_right _ (List.mem_singleton_self id)

theorem mem_foldl_visit (done : List Nat) (hid : id ∈ ids) : id ∈ ids.foldl (s.visit h) done := by
  obtain ⟨before, after, rfl⟩ := List.append_of_mem hid
  rw [List.foldl_append, List.foldl_cons]
  exact (prefix_foldl_visit _ after).subset (mem_visit _ id)

/-- Whatever a visit adds can be reached from the visited node. -/
theorem reaches_of_mem_visit (hj : j ∈ s.visit h done id) :
    j ∈ done ∨ ReflTransGen s.DependsOn id j := by
  induction id using h.wellFounded.induction generalizing done j with
  | _ id ih =>
    by_cases hid : id ∈ done
    · rw [visit_of_mem hid] at hj
      exact .inl hj
    · rw [visit_of_not_mem hid] at hj
      rcases List.mem_append.1 hj with hj | hj
      · have hall : ∀ j ∈ (s.dependencies id).foldl (s.visit h) done,
            j ∈ done ∨ ReflTransGen s.DependsOn id j := by
          refine List.foldlRecOn (motive := fun ids => ∀ j ∈ ids, j ∈ done ∨ ReflTransGen s.DependsOn id j)
            _ _ (fun _ => .inl) fun done' hdone' k hk j hj => ?_
          have hk := mem_dependencies_iff.1 hk
          rcases ih k hk hj with hj | hkj
          · exact hdone' j hj
          · exact .inr (hkj.head hk)
        exact hall j hj
      · rw [List.mem_singleton.1 hj]
        exact .inr .refl

/-- A visit keeps the nodes in order; the visited node itself is met last, since nothing that it mentions
leads back to it. -/
theorem Ordered.visit (hdone : s.Ordered done) (hscoped : s.Scoped) (hdefined : s.FullyDefined)
    (hid : id < s.size) : s.Ordered (s.visit h done id) := by
  induction id using h.wellFounded.induction generalizing done with
  | _ id ih =>
    by_cases hmem : id ∈ done
    · rwa [visit_of_mem hmem]
    · rw [visit_of_not_mem hmem]
      refine Ordered.snoc ?_ (hdefined.exists_argsOf hid) ?_
        fun j hj => mem_foldl_visit done (mem_dependencies_iff.2 hj)
      · refine List.foldlRecOn _ _ hdone fun done' hdone' j hj => ?_
        have hj := mem_dependencies_iff.1 hj
        exact ih j hj hdone' (hscoped id j hj)
      · refine List.foldlRecOn (motive := fun done' => id ∉ done') _ _ hmem fun done' hnot j hj hmem' => ?_
        have hj := mem_dependencies_iff.1 hj
        rcases reaches_of_mem_visit hmem' with hmem' | hback
        · exact hnot hmem'
        · exact h id (TransGen.head' hj hback)

theorem ordered_postOrder (hscoped : s.Scoped) (hdefined : s.FullyDefined) :
    s.Ordered (s.postOrder h) :=
  List.foldlRecOn _ _ .nil fun _ hdone _ hid => hdone.visit hscoped hdefined (List.mem_range.1 hid)

theorem mem_postOrder (hscoped : s.Scoped) (hdefined : s.FullyDefined) :
    id ∈ s.postOrder h ↔ id < s.size := by
  refine ⟨fun hid => ?_, fun hid => mem_foldl_visit [] (List.mem_range.2 hid)⟩
  obtain ⟨p, hargs⟩ := (ordered_postOrder hscoped hdefined).defined id hid
  exact lt_of_argsOf hargs

theorem Ordered.nodup (hids : s.Ordered ids) : ids.Nodup := by
  induction hids with
  | nil => exact List.nodup_nil
  | snoc _ _ hnew _ ih => exact ih.append (List.nodup_singleton _) (List.disjoint_singleton.2 hnew)

theorem Ordered.mentioned_before (hids : s.Ordered ids) {before after : List Nat}
    (hsplit : ids = before ++ id :: after) (hj : s.DependsOn id j) : j ∈ before := by
  induction hids generalizing after with
  | nil => simp at hsplit
  | @snoc ids last _ _ _ hdeps ih =>
    rcases List.eq_nil_or_concat after with rfl | ⟨after, x, rfl⟩
    · obtain ⟨rfl, hlast⟩ := List.append_inj' hsplit rfl
      cases hlast
      exact hdeps j hj
    · rw [List.concat_eq_append, ← List.cons_append, ← List.append_assoc] at hsplit
      exact ih (List.append_inj' hsplit rfl).1

end SoundGraph.Sketch
