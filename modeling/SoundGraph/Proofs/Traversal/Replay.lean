import SoundGraph.Proofs.Traversal.Halting
import SoundGraph.Proofs.Traversal.PostOrder
import SoundGraph.Proofs.Traversal.Resolution

/-! The walk over a sketch without cycles expands the nodes in post-order. What is left to do at any point,
the entries of the stack from the top and then the roots, comes to the same order in the end, so a turn may
only carry out the next part of it. The outcome is then that of expanding one node after the other, without
a stack and without marks for the path. -/

namespace SoundGraph.Sketch

open Expanding

def expandOne (s : Sketch) (limit : Nat) (progress : Array Progress) (id : Nat) :
    Expanding (Array Progress) := do
  let (node, args) ← check fun _ => s.argsOf id
  let value ← s.expandNode limit progress node args
  return progress.setIfInBounds id (.done value)

def expandInOrder (s : Sketch) (limit : Nat) (ids : List Nat) : Expanding (Array Progress) :=
  ids.foldlM (s.expandOne limit) (Array.replicate s.size .waiting)

/-- The nodes met once the stack is worked off, when those in `done` have been met before. -/
def resume (s : Sketch) (h : s.Acyclic) (done : List Nat) : List Step → List Nat
  | [] => done
  | .enter id :: stack => s.resume h (s.visit h done id) stack
  | .finish id :: stack => s.resume h (done ++ [id]) stack

def plan (s : Sketch) (h : s.Acyclic) (w : Walk) : List Nat :=
  w.roots.foldl (s.visit h) (s.resume h w.expanded w.stack)

variable {s : Sketch} {limit : Nat} {h : s.Acyclic} {w w' : Walk} {x : Expansion}

section Plan

variable {done ids : List Nat} {stack : List Step}

theorem prefix_resume (done : List Nat) (stack : List Step) : done <+: s.resume h done stack := by
  induction stack generalizing done with
  | nil => exact List.prefix_refl _
  | cons step stack ih =>
    cases step with
    | enter id => exact (prefix_visit done id).trans (ih _)
    | finish id => exact (List.prefix_append _ _).trans (ih _)

theorem resume_enter (ids : List Nat) (done : List Nat) :
    s.resume h done (ids.map .enter ++ stack) = s.resume h (ids.foldl (s.visit h) done) stack := by
  induction ids generalizing done with
  | nil => rfl
  | cons id ids ih => exact ih _

/-- Nodes met before may be left out. -/
theorem foldl_visit_filter {p : Nat → Bool} (hout : ∀ j ∈ ids, p j = true ∨ j ∈ done) :
    (ids.filter p).foldl (s.visit h) done = ids.foldl (s.visit h) done := by
  induction ids generalizing done with
  | nil => rfl
  | cons id ids ih =>
    obtain ⟨hid, hids⟩ := List.forall_mem_cons.1 hout
    cases hp : p id with
    | true =>
      rw [List.filter_cons_of_pos hp]
      exact ih fun j hj => (hids j hj).imp_right fun hj => (prefix_visit done id).subset hj
    | false =>
      rw [List.filter_cons_of_neg (by simp [hp]), List.foldl_cons,
        visit_of_mem (hid.resolve_left (by simp [hp]))]
      exact ih hids

/-- A turn does the next part of the plan. -/
theorem plan_turn (hw : s.Threaded w) (ht : s.Turn limit w w') : s.plan h w' = s.plan h w := by
  cases ht with
  | root => rfl
  | skip hargs hdone =>
    simp only [plan, resume]
    rw [visit_of_mem ((hw.done _).1 ⟨_, hdone⟩)]
  | @enter id roots expanded stack stack' progress x node args hargs hlt hwaits hstack =>
    obtain ⟨rfl, hall⟩ := scheduleAll_eq_ok hstack
    rw [← dependencies_of_argsOf hargs] at hall ⊢
    have hold : progress[id]? = some .waiting :=
      (Array.getElem?_eq_getElem hlt).trans (congrArg some hwaits)
    have hnew : id ∉ expanded := by
      rw [← hw.done id, hold]
      rintro ⟨v, hv⟩
      cases hv
    have hout : ∀ j ∈ s.dependencies id, waitsAt (progress.set id .onPath) j = true ∨ j ∈ expanded := by
      refine fun j hj => (hall j hj).imp_right fun ⟨v, hv⟩ => (hw.done j).1 ⟨v, ?_⟩
      rw [Array.getElem?_set hlt] at hv
      split at hv
      · cases hv
      · exact hv
    -- what scheduling leaves out is done, and to visit it again changes nothing
    simp only [plan, resume]
    rw [resume_enter, foldl_visit_filter hout, visit_of_not_mem hnew, resume]
  | expand hargs hlt hvalue => rfl

theorem plan_reaches (hr : s.Reaches limit (s.start x) w) : s.plan h w = s.postOrder h := by
  induction hr with
  | refl => rfl
  | tail hr ht ih => rw [plan_turn ((threaded_start s x).reaches hr) ht, ih]

/-- The nodes expanded so far are the first of the order. -/
theorem isPrefix_expanded (hr : s.Reaches limit (s.start x) w) : w.expanded <+: s.postOrder h := by
  rw [← plan_reaches hr]
  exact (prefix_resume _ _).trans (prefix_foldl_visit _ _)

/-- The node about to be expanded comes next in the order. -/
theorem isPrefix_next (hr : s.Reaches limit (s.start x) w) {id : Nat} (hstack : w.stack = .finish id :: stack) :
    w.expanded ++ [id] <+: s.postOrder h := by
  rw [← plan_reaches hr, plan, hstack]
  exact (prefix_resume _ stack).trans (prefix_foldl_visit _ _)

end Plan

section Outcome

variable {p p' : Array Progress} {x' : Expansion} {e : Abort} {ids : List Nat} {id j : Nat}

theorem run_expandOne_eq_ok_iff :
    s.expandOne limit p id x = .ok p' x' ↔ ∃ node args value, s.argsOf id = .ok (node, args) ∧
      s.expandNode limit p node args x = .ok value x' ∧ p' = p.setIfInBounds id (.done value) := by
  refine ⟨fun hone => ?_, fun ⟨node, args, value, hargs, hvalue, heq⟩ => ?_⟩
  · rw [expandOne, run_bind_eq_ok_iff] at hone
    obtain ⟨⟨node, args⟩, x₁, hcheck, hone⟩ := hone
    obtain ⟨hargs, rfl⟩ := run_check_eq_ok_iff.1 hcheck
    obtain ⟨value, x₂, hvalue, hone⟩ := run_bind_eq_ok_iff.1 hone
    cases hone
    exact ⟨node, args, value, hargs, hvalue, rfl⟩
  · subst heq
    exact run_bind_eq_ok_iff.2 ⟨_, x, run_check_eq_ok_iff.2 ⟨hargs, rfl⟩,
      run_bind_eq_ok_iff.2 ⟨value, x', hvalue, rfl⟩⟩

theorem run_expandOne_eq_error {node : PendingNode} {args : List Element}
    (hargs : s.argsOf id = .ok (node, args)) (hvalue : s.expandNode limit p node args x = .error e x') :
    s.expandOne limit p id x = .error e x' :=
  run_bind_eq_error_iff.2 (.inr ⟨_, x, run_check_eq_ok_iff.2 ⟨hargs, rfl⟩,
    run_bind_eq_error_iff.2 (.inl hvalue)⟩)

theorem expandInOrder_append (before after : List Nat) :
    s.expandInOrder limit (before ++ after) =
      s.expandInOrder limit before >>= fun p => after.foldlM (s.expandOne limit) p :=
  List.foldlM_append

theorem expandInOrder_concat (before : List Nat) (id : Nat) :
    s.expandInOrder limit (before ++ [id]) =
      s.expandInOrder limit before >>= fun p => s.expandOne limit p id := by
  simp only [expandInOrder_append, List.foldlM_cons, List.foldlM_nil, bind_pure]

/-- Expanding other nodes leaves the entry of a node alone. -/
theorem frame_of_foldlM_expandOne (hok : ids.foldlM (s.expandOne limit) p x = .ok p' x') :
    p'.size = p.size ∧ ∀ j, j ∉ ids → p'[j]? = p[j]? := by
  induction ids generalizing p x with
  | nil =>
    cases hok
    exact ⟨rfl, fun _ _ => rfl⟩
  | cons id ids ih =>
    rw [List.foldlM_cons] at hok
    obtain ⟨p₁, x₁, hone, hrest⟩ := run_bind_eq_ok_iff.1 hok
    obtain ⟨node, args, value, -, -, rfl⟩ := run_expandOne_eq_ok_iff.1 hone
    obtain ⟨hsize, hframe⟩ := ih hrest
    refine ⟨by rw [hsize, Array.size_setIfInBounds], fun j hj => ?_⟩
    rw [List.mem_cons, not_or] at hj
    rw [hframe j hj.2, Array.getElem?_setIfInBounds_ne (Ne.symm hj.1)]

end Outcome

/-- What the walk has done so far is what the nodes expanded so far come to when they are expanded one after
the other. -/
def Replayed (s : Sketch) (limit : Nat) (x : Expansion) (w : Walk) : Prop :=
  ∃ p, s.expandInOrder limit w.expanded x = .ok p w.table ∧ SameDone p w.progress

theorem Replayed.turn (hrep : s.Replayed limit x w) (ht : s.Turn limit w w') : s.Replayed limit x w' := by
  obtain ⟨p, hp, hsame⟩ := hrep
  cases ht with
  | root => exact ⟨p, hp, hsame⟩
  | skip => exact ⟨p, hp, hsame⟩
  | enter hargs hlt hwaits => exact ⟨p, hp, hsame.onPath hlt hwaits⟩
  | @expand id roots expanded stack progress x x' node args value hargs hlt hvalue =>
    rw [← hsame.expandNode_eq] at hvalue
    refine ⟨_, ?_, hsame.record hlt value⟩
    rw [expandInOrder_concat]
    exact run_bind_eq_ok_iff.2 ⟨p, _, hp, run_expandOne_eq_ok_iff.2 ⟨_, _, _, hargs, hvalue, rfl⟩⟩

theorem replayed_reaches (hr : s.Reaches limit (s.start x) w) : s.Replayed limit x w := by
  induction hr with
  | refl => exact ⟨_, rfl, .refl _⟩
  | tail _ ht ih => exact ih.turn ht

/-- Without cycles and with all arguments there, only an expansion can fail. -/
theorem failed_of_halts (h : s.Acyclic) (hscoped : s.Scoped) (hdefined : s.FullyDefined)
    (hr : s.Reaches limit (s.start x) w) {e : Abort} {x' : Expansion} (hh : s.Halts limit w e x') :
    ∃ id stack node args, w.stack = .finish id :: stack ∧ s.argsOf id = .ok (node, args) ∧
      s.expandNode limit w.progress node args w.table = .error e x' := by
  rcases cause_of_halts hscoped hr hh with ⟨id, node, hnode, hnone, -⟩ | ⟨id, node, -, hcycle, -⟩ | hfailed
  · have hsome := hdefined node (Array.mem_toList_iff.2 (Array.mem_of_getElem? hnode))
    rw [hnone] at hsome
    cases hsome
  · exact absurd hcycle (h id)
  · exact hfailed

theorem walkAll_eq_expandInOrder (h : s.Acyclic) (hscoped : s.Scoped) (hdefined : s.FullyDefined)
    (x : Expansion) : s.walkAll limit x = s.expandInOrder limit (s.postOrder h) x := by
  cases hres : s.walkAll limit x with
  | ok progress x' =>
    obtain ⟨expanded, hr⟩ := (walkAll_follows x).of_ok hres
    have hend := (threaded_start s x).reaches hr
    have horder : expanded = s.postOrder h := plan_reaches hr
    obtain ⟨p, hp, hsame⟩ := replayed_reaches hr
    have hall : ∀ j < progress.size, ∃ v, progress[j]? = some (.done v) := fun j hj =>
      (hend.done j).2 (hend.mem_expanded (hend.size ▸ hj))
    rw [← horder, hp, hsame.eq hall]
  | error e x' =>
    obtain ⟨w, hr, hh⟩ := (walkAll_follows x).of_error hres
    obtain ⟨id, stack, node, args, hstack, hargs, hvalue⟩ := failed_of_halts h hscoped hdefined hr hh
    obtain ⟨p, hp, hsame⟩ := replayed_reaches hr
    -- the node that failed is the next of the order, so the run in order stops there as well
    obtain ⟨rest, hrest⟩ := isPrefix_next (h := h) hr hstack
    rw [← hsame.expandNode_eq] at hvalue
    have hfirst : s.expandInOrder limit (w.expanded ++ [id]) x = .error e x' := by
      rw [expandInOrder_concat]
      exact run_bind_eq_error_iff.2 (.inr ⟨p, _, hp, run_expandOne_eq_error hargs hvalue⟩)
    rw [← hrest, expandInOrder_append]
    exact (run_bind_eq_error_iff.2 (.inl hfirst)).symm

/-- Where a run in order succeeds, the turn of each node comes behind those before it, and the others follow. -/
theorem turn_of_expandInOrder {before after : List Nat} {id : Nat} {progress : Array Progress} {x' : Expansion}
    (hok : s.expandInOrder limit (before ++ id :: after) x = .ok progress x') :
    ∃ node args value p x₁ x₂, s.expandInOrder limit before x = .ok p x₁ ∧
      s.argsOf id = .ok (node, args) ∧ s.expandNode limit p node args x₁ = .ok value x₂ ∧
      after.foldlM (s.expandOne limit) (p.setIfInBounds id (.done value)) x₂ = .ok progress x' := by
  rw [expandInOrder_append] at hok
  obtain ⟨p, x₁, hbefore, hrest⟩ := run_bind_eq_ok_iff.1 hok
  rw [List.foldlM_cons] at hrest
  obtain ⟨p', x₂, hone, hafter⟩ := run_bind_eq_ok_iff.1 hrest
  obtain ⟨node, args, value, hargs, hvalue, rfl⟩ := run_expandOne_eq_ok_iff.1 hone
  exact ⟨node, args, value, p, x₁, x₂, hbefore, hargs, hvalue, hafter⟩

/-- The later turns leave the signal alone that a node has been given, and what was there before. -/
theorem kept_of_foldlM_expandOne {before after : List Nat} {id : Nat} (hnodup : (before ++ id :: after).Nodup)
    {p progress : Array Progress} (hid : id < p.size) {value : Signal} {x' : Expansion}
    (hok : after.foldlM (s.expandOne limit) (p.setIfInBounds id (.done value)) x = .ok progress x') :
    progress[id]? = some (.done value) ∧ ∀ j ∈ before, progress[j]? = p[j]? := by
  obtain ⟨-, hlater, hapart⟩ := List.nodup_append.1 hnodup
  have hnot : id ∉ after := (List.nodup_cons.1 hlater).1
  have hframe := (frame_of_foldlM_expandOne hok).2
  refine ⟨?_, fun j hj => ?_⟩
  · rw [hframe id hnot, Array.getElem?_setIfInBounds_self_of_lt hid]
  · have hne : id ≠ j := fun heq => hapart j hj id List.mem_cons_self heq.symm
    have hout : j ∉ after := fun hmem => hapart j hj j (List.mem_cons_of_mem _ hmem) rfl
    rw [hframe j hout, Array.getElem?_setIfInBounds_ne hne]

theorem size_of_expandInOrder {ids : List Nat} {p : Array Progress} {x' : Expansion}
    (h : s.expandInOrder limit ids x = .ok p x') : p.size = s.size := by
  rw [(frame_of_foldlM_expandOne h).1, Array.size_replicate]

/-- In a run in order that succeeds, a node is given its signal when its turn comes, and whatever is done by
then stays as it is. -/
theorem recorded_of_expandInOrder {before after : List Nat} {id : Nat}
    (hnodup : (before ++ id :: after).Nodup) (hid : id < s.size) {progress : Array Progress}
    {x' : Expansion} (hok : s.expandInOrder limit (before ++ id :: after) x = .ok progress x') :
    ∃ node args value p x₁ x₂, s.expandInOrder limit before x = .ok p x₁ ∧
      s.argsOf id = .ok (node, args) ∧ s.expandNode limit p node args x₁ = .ok value x₂ ∧
      progress[id]? = some (.done value) ∧ ∀ j ∈ before, progress[j]? = p[j]? := by
  obtain ⟨node, args, value, p, x₁, x₂, hbefore, hargs, hvalue, hafter⟩ := turn_of_expandInOrder hok
  have hkept := kept_of_foldlM_expandOne hnodup (size_of_expandInOrder hbefore ▸ hid) hafter
  exact ⟨node, args, value, p, x₁, x₂, hbefore, hargs, hvalue, hkept⟩

/-- The walk over a sketch without cycles in which every node has its arguments: its turns come to an end,
it expands the nodes of the post-order one after the other, each once and after what it mentions, and it
comes to the outcome that they come to, also where one fails. When it succeeds, every node has kept the
signal of its own expansion, and that is what the later nodes that mention it have got for it. -/
theorem walkAll_postOrder {s : Sketch} {calls : List Call} (hs : s = ({} : Sketch).run calls)
    (h : s.Acyclic) (hdefined : s.FullyDefined) (limit : Nat) (x : Expansion) :
    (WellFounded fun w' w => s.Turn limit w w') ∧
    (s.postOrder h).Nodup ∧ (∀ id, id ∈ s.postOrder h ↔ id < s.size) ∧
    (∀ before id after, s.postOrder h = before ++ id :: after → ∀ j, s.DependsOn id j → j ∈ before) ∧
    (∀ w, s.Reaches limit (s.start x) w → w.expanded <+: s.postOrder h ∧ s.Replayed limit x w) ∧
    s.walkAll limit x = s.expandInOrder limit (s.postOrder h) x ∧
    ∀ progress x', s.walkAll limit x = .ok progress x' →
      ∀ before id after, s.postOrder h = before ++ id :: after →
        ∃ node args value p x₁ x₂, s.expandInOrder limit before x = .ok p x₁ ∧
          s.argsOf id = .ok (node, args) ∧ s.expandNode limit p node args x₁ = .ok value x₂ ∧
          progress[id]? = some (.done value) ∧
          ∀ j, s.DependsOn id j →
            ∃ v, progress[j]? = some (.done v) ∧ s.resolve p x₁ (.pending j) = .ok v := by
  have hscoped : s.Scoped := hs ▸ scoped_empty.run calls
  have hordered : s.Ordered (s.postOrder h) := ordered_postOrder hscoped hdefined
  have hmem : ∀ id, id ∈ s.postOrder h ↔ id < s.size := fun id => mem_postOrder hscoped hdefined
  have hwalk : s.walkAll limit x = s.expandInOrder limit (s.postOrder h) x :=
    walkAll_eq_expandInOrder h hscoped hdefined x
  refine ⟨turn_wellFounded s limit, hordered.nodup, hmem,
    fun before id after hsplit j hj => hordered.mentioned_before hsplit hj,
    fun w hr => ⟨isPrefix_expanded hr, replayed_reaches hr⟩, hwalk, ?_⟩
  intro progress x' hok
  rw [hwalk] at hok
  have hrecorded : ∀ before id after, s.postOrder h = before ++ id :: after → _ :=
    fun before id after hsplit => recorded_of_expandInOrder (hsplit ▸ hordered.nodup)
      ((hmem id).1 (hsplit ▸ List.mem_append_right _ List.mem_cons_self)) (hsplit ▸ hok)
  intro before id after hsplit
  obtain ⟨node, args, value, p, x₁, x₂, hbefore, hargs, hvalue, hkept, hstay⟩ :=
    hrecorded before id after hsplit
  refine ⟨node, args, value, p, x₁, x₂, hbefore, hargs, hvalue, hkept, fun j hj => ?_⟩
  have hearlier := hordered.mentioned_before hsplit hj
  obtain ⟨before', after', hsplit'⟩ := List.append_of_mem ((hmem j).2 (hscoped id j hj))
  obtain ⟨-, -, v, -, -, -, -, -, -, hv, -⟩ := hrecorded before' j after' hsplit'
  refine ⟨v, hv, ?_⟩
  rw [hstay j hearlier] at hv
  rw [resolve, hv]

def detourCalls : List Call :=
  let filter : Generator := ⟨{ name := "LPF", rate := .follow 0, inputs := [⟨"in", .any, false⟩] }, none⟩
  let noise : Generator := ⟨{ name := "WhiteNoise", rate := .fixed .audio, inputs := [] }, none⟩
  [.declare filter, .add noise [], .add ⟨binary "Mul", none⟩ [.pending 1, .pending 1],
    .define 0 [.bundle [.pending 2, .pending 1]]]

theorem walkAll_postOrder_detour :
    ∃ s : Sketch, s = ({} : Sketch).run detourCalls ∧ s.FullyDefined ∧ ∃ h : s.Acyclic,
      s.postOrder h = [1, 2, 0] ∧ ∀ limit x, s.walkAll limit x = s.expandInOrder limit [1, 2, 0] x := by
  generalize hs : ({} : Sketch).run detourCalls = s
  have hdeps : s.dependencies 0 = [2, 1] ∧ s.dependencies 1 = [] ∧ s.dependencies 2 = [1, 1] ∧ s.size = 3 := by
    rw [← hs]
    exact ⟨rfl, rfl, rfl, rfl⟩
  obtain ⟨hfilter, hnoise, hproduct, hsize⟩ := hdeps
  have hdefined : s.FullyDefined := by
    rw [← hs]
    exact List.forall_mem_cons.2 ⟨rfl, List.forall_mem_cons.2 ⟨rfl, List.forall_mem_cons.2
      ⟨rfl, List.forall_mem_nil _⟩⟩⟩
  have h : s.Acyclic := by
    refine acyclic_of_rank (fun i => [2, 0, 1].getD i 0) fun i j hij => ?_
    have hlt := hij.lt_size
    rw [← mem_dependencies_iff] at hij
    obtain rfl | rfl | rfl : i = 0 ∨ i = 1 ∨ i = 2 := by omega
    · have hj : j = 2 ∨ j = 1 := by simpa [hfilter] using hij
      rcases hj with rfl | rfl <;> decide
    · simp [hnoise] at hij
    · have hj : j = 1 := by simpa [hproduct] using hij
      rw [hj]
      decide
  have horder : s.postOrder h = [1, 2, 0] := by
    simp [postOrder, hsize, List.range_succ, visit_of_mem, visit_of_not_mem, hfilter, hnoise, hproduct]
  refine ⟨s, rfl, hdefined, h, horder, fun limit x => ?_⟩
  rw [← horder]
  exact (walkAll_postOrder hs.symm h hdefined limit x).2.2.2.2.2.1

end SoundGraph.Sketch
