import SoundGraph.Proofs.Success
import SoundGraph.Proofs.Traversal.Dependency
import SoundGraph.Proofs.Traversal.Turns

/-! What every turn of the walk keeps. The nodes on the path are those that the stack has still to finish.
An entry above one of them is another node, which it leads to along dependencies, and a node is not
finished before everything that it mentions has been expanded or stands above it. So the expanded nodes
are always in an order in which each comes after what it mentions. -/

namespace SoundGraph.Sketch

open Relation

/-- Each node once, and after all that it mentions. -/
inductive Ordered (s : Sketch) : List Nat → Prop where
  | nil : Ordered s []
  | snoc {ids : List Nat} {id : Nat} (h : Ordered s ids) (hdefined : ∃ p, s.argsOf id = .ok p)
    (hnew : id ∉ ids) (hdeps : ∀ j, s.DependsOn id j → j ∈ ids) : Ordered s (ids ++ [id])

/-- Read from the top, the stack finishes no node before all that it mentions is `seen` or read. -/
def Supplied (s : Sketch) (seen : List Nat) : List Step → Prop
  | [] => True
  | .enter id :: stack => s.Supplied (id :: seen) stack
  | .finish id :: stack => (∀ j, s.DependsOn id j → j ∈ seen) ∧ s.Supplied (id :: seen) stack

/-- A node that the stack has to finish leads to step `a` above it, and is not the node of `a`. -/
def LeadsTo (s : Sketch) (a b : Step) : Prop :=
  ∀ id, b = .finish id → Step.id a ≠ id ∧ TransGen s.DependsOn id (Step.id a)

structure Threaded (s : Sketch) (w : Walk) : Prop where
  size : w.progress.size = s.size
  path : ∀ id, w.progress[id]? = some .onPath ↔ .finish id ∈ w.stack
  done : ∀ id, (∃ v, w.progress[id]? = some (.done v)) ↔ id ∈ w.expanded
  ordered : s.Ordered w.expanded
  above : w.stack.Pairwise s.LeadsTo
  supplied : s.Supplied w.expanded w.stack
  covered : ∀ id < s.size, id ∈ w.expanded ∨ id ∈ w.roots ∨ ∃ step ∈ w.stack, Step.id step = id

variable {s : Sketch} {limit : Nat} {seen seen' : List Nat} {stack : List Step}

theorem Supplied.mono (h : s.Supplied seen stack) (hsub : seen ⊆ seen') : s.Supplied seen' stack := by
  induction stack generalizing seen seen' with
  | nil => trivial
  | cons step stack ih =>
    cases step with
    | enter id => exact ih h (List.cons_subset_cons id hsub)
    | finish id => exact ⟨fun j hj => hsub (h.1 j hj), ih h.2 (List.cons_subset_cons id hsub)⟩

theorem Supplied.enter {ids : List Nat} (h : s.Supplied (ids ++ seen) stack) :
    s.Supplied seen (ids.map .enter ++ stack) := by
  induction ids generalizing seen with
  | nil => exact h
  | cons id ids ih =>
    refine ih (h.mono fun j hj => ?_)
    simp only [List.cons_append, List.mem_cons, List.mem_append] at hj ⊢
    tauto

def waitsAt (progress : Array Progress) (id : Nat) : Bool := progress[id]?.any Progress.isWaiting

theorem waitsAt_iff {progress : Array Progress} {id : Nat} :
    waitsAt progress id = true ↔ progress[id]? = some .waiting := by
  unfold waitsAt
  cases h : progress[id]? with
  | none => simp
  | some p => cases p <;> simp [Progress.isWaiting]

/-- The nodes mentioned that wait go on the stack in their order; the others are done. -/
theorem scheduleAll_eq_ok {progress : Array Progress} {args : List Element} {stack' : List Step}
    (h : s.scheduleAll progress args stack = .ok stack') :
    stack' = ((Element.pendingsOf args).filter (waitsAt progress)).map .enter ++ stack ∧
      ∀ j ∈ Element.pendingsOf args, waitsAt progress j = true ∨ ∃ v, progress[j]? = some (.done v) := by
  unfold scheduleAll at h
  generalize Element.pendingsOf args = ids at h ⊢
  induction ids generalizing stack' with
  | nil =>
    cases h
    exact ⟨rfl, by simp⟩
  | cons j js ih =>
    rw [List.foldrM_cons, bind_eq_ok_iff] at h
    obtain ⟨stack₁, hrest, hj⟩ := h
    obtain ⟨rfl, hall⟩ := ih hrest
    unfold schedule at hj
    split at hj
    · next v hv =>
      cases hj
      have hw : waitsAt progress j = false := by
        rw [← Bool.not_eq_true, waitsAt_iff, hv]
        simp
      rw [List.filter_cons_of_neg (by simp [hw])]
      exact ⟨rfl, List.forall_mem_cons.2 ⟨.inr ⟨v, hv⟩, hall⟩⟩
    · cases hj
    · next hv =>
      cases hj
      have hw := waitsAt_iff.2 hv
      rw [List.filter_cons_of_pos hw]
      exact ⟨rfl, List.forall_mem_cons.2 ⟨.inl hw, hall⟩⟩
    · cases hj

/-- Scheduling stops at a mentioned node that is on the path, or at a number past the table. -/
theorem scheduleAll_eq_error {progress : Array Progress} {args : List Element} {e : Abort}
    (h : s.scheduleAll progress args stack = .error e) :
    ∃ j ∈ Element.pendingsOf args,
      progress[j]? = some .onPath ∧ e = .rejected (.cyclic (s.label j)) ∨
        progress[j]? = none ∧ e = .fault (.progress j) := by
  unfold scheduleAll at h
  generalize Element.pendingsOf args = ids at h ⊢
  induction ids with
  | nil => cases h
  | cons j js ih =>
    rw [List.foldrM_cons] at h
    cases hrest : js.foldrM (s.schedule progress) stack with
    | error e' =>
      rw [hrest] at h
      obtain ⟨k, hk, hcause⟩ := ih (hrest.trans h)
      exact ⟨k, List.mem_cons_of_mem _ hk, hcause⟩
    | ok stack₁ =>
      rw [hrest] at h
      change s.schedule progress j stack₁ = .error e at h
      unfold schedule at h
      split at h
      · cases h
      · next hv =>
        cases h
        exact ⟨j, List.mem_cons_self, .inl ⟨hv, rfl⟩⟩
      · cases h
      · next hv =>
        cases h
        exact ⟨j, List.mem_cons_self, .inr ⟨hv, rfl⟩⟩

theorem threaded_start (s : Sketch) (x : Expansion) : s.Threaded (s.start x) := by
  have hget : ∀ (id : Nat) (p : Progress), (s.start x).progress[id]? = some p → p = .waiting := by
    intro id p h
    rw [start, Array.getElem?_replicate] at h
    split at h
    · exact (Option.some.inj h).symm
    · cases h
  refine ⟨by simp [start], fun id => ?_, fun id => ?_, .nil, .nil, trivial, fun id hid => ?_⟩
  · refine ⟨fun h => ?_, fun h => by simp [start] at h⟩
    cases hget id _ h
  · refine ⟨fun ⟨v, h⟩ => ?_, fun h => by simp [start] at h⟩
    cases hget id _ h
  · exact .inr (.inl (List.mem_range.2 hid))

section Turns

variable {roots expanded : List Nat} {progress : Array Progress} {x x' : Expansion} {id : Nat}
  {node : PendingNode} {args : List Element} {value : Signal}

theorem Threaded.root {root : Nat} (h : s.Threaded ⟨root :: roots, [], progress, expanded, x⟩) :
    s.Threaded ⟨roots, [.enter root], progress, expanded, x⟩ := by
  refine ⟨h.size, fun id => ?_, h.done, h.ordered, List.pairwise_singleton .., trivial, fun id hid => ?_⟩
  · rw [h.path]
    simp
  · rcases h.covered id hid with hid | hid | ⟨step, hstep, -⟩
    · exact .inl hid
    · rcases List.mem_cons.1 hid with rfl | hid
      · exact .inr (.inr ⟨_, List.mem_singleton_self _, rfl⟩)
      · exact .inr (.inl hid)
    · cases hstep

theorem Threaded.skip (h : s.Threaded ⟨roots, .enter id :: stack, progress, expanded, x⟩)
    (hdone : progress[id]? = some (.done value)) : s.Threaded ⟨roots, stack, progress, expanded, x⟩ := by
  have hid : id ∈ expanded := (h.done id).1 ⟨value, hdone⟩
  refine ⟨h.size, fun j => ?_, h.done, h.ordered, h.above.of_cons, ?_, fun j hj => ?_⟩
  · rw [h.path]
    simp
  · exact Supplied.mono h.supplied (List.cons_subset.2 ⟨hid, List.Subset.refl _⟩)
  · rcases h.covered j hj with hj | hj | ⟨step, hstep, rfl⟩
    · exact .inl hj
    · exact .inr (.inl hj)
    · rcases List.mem_cons.1 hstep with rfl | hstep
      · exact .inl hid
      · exact .inr (.inr ⟨step, hstep, rfl⟩)

/-- The entries put on the stack are for nodes that wait, which are neither the entered node nor on the
path before it. -/
theorem Threaded.enter {stack' : List Step}
    (h : s.Threaded ⟨roots, .enter id :: stack, progress, expanded, x⟩)
    (hargs : s.argsOf id = .ok (node, args)) (hlt : id < progress.size) (hwaits : progress[id] = .waiting)
    (hstack : s.scheduleAll (progress.set id .onPath) args (.finish id :: stack) = .ok stack') :
    s.Threaded ⟨roots, stack', progress.set id .onPath, expanded, x⟩ := by
  obtain ⟨rfl, hall⟩ := scheduleAll_eq_ok hstack
  rw [← dependencies_of_argsOf hargs] at hall ⊢
  have hget : ∀ j, (progress.set id .onPath)[j]? = if id = j then some .onPath else progress[j]? :=
    fun j => Array.getElem?_set hlt
  have hold : progress[id]? = some .waiting := (Array.getElem?_eq_getElem hlt).trans (congrArg some hwaits)
  have hpath : ∀ j, (progress.set id .onPath)[j]? = some .onPath ↔ j = id ∨ .finish j ∈ stack := by
    intro j
    rw [hget]
    split
    · next heq => simp [heq]
    · next hne => simpa [Ne.symm hne] using h.path j
  have hdone : ∀ j, (∃ v, (progress.set id .onPath)[j]? = some (.done v)) ↔ j ∈ expanded := by
    intro j
    rw [← h.done j, hget]
    split
    · next heq => simp [← heq, hold]
    · rfl
  obtain ⟨hlead, habove⟩ := List.pairwise_cons.1 h.above
  refine ⟨by rw [Array.size_set]; exact h.size, fun j => ?_, hdone, h.ordered, ?_, ?_, fun j hj => ?_⟩
  · change (progress.set id .onPath)[j]? = _ ↔ _
    rw [hpath]
    simp
  · refine List.pairwise_append.2 ⟨?_, List.pairwise_cons.2 ⟨hlead, habove⟩, fun a ha b hb j hj => ?_⟩
    · refine List.pairwise_map.2 (List.pairwise_of_forall fun a b k hk => ?_)
      cases hk
    · obtain ⟨k, hk, rfl⟩ := List.mem_map.1 ha
      obtain ⟨hk, hw⟩ := List.mem_filter.1 hk
      have hdep := mem_dependencies_iff.1 hk
      subst hj
      have hb' : j = id ∨ .finish j ∈ stack := by simpa using hb
      -- what is scheduled waits, while the nodes to finish are on the path
      refine ⟨fun heq => ?_, ?_⟩
      · change k = j at heq
        rw [heq, waitsAt_iff, (hpath j).2 hb'] at hw
        cases hw
      · rcases hb' with rfl | hb'
        · exact .single hdep
        · exact (hlead _ hb' j rfl).2.tail hdep
  · refine Supplied.enter ⟨fun j hj => ?_, Supplied.mono h.supplied ?_⟩
    · have hj := mem_dependencies_iff.2 hj
      rcases hall j hj with hw | hd
      · exact List.mem_append_left _ (List.mem_filter.2 ⟨hj, hw⟩)
      · exact List.mem_append_right _ ((hdone j).1 hd)
    · exact List.cons_subset_cons id (List.subset_append_right _ _)
  · rcases h.covered j hj with hj | hj | ⟨step, hstep, rfl⟩
    · exact .inl hj
    · exact .inr (.inl hj)
    · rcases List.mem_cons.1 hstep with rfl | hstep
      · exact .inr (.inr ⟨.finish id, by simp, rfl⟩)
      · exact .inr (.inr ⟨step, by simp [hstep], rfl⟩)

theorem Threaded.expand (h : s.Threaded ⟨roots, .finish id :: stack, progress, expanded, x⟩)
    (hargs : s.argsOf id = .ok (node, args)) (hlt : id < progress.size) :
    s.Threaded ⟨roots, stack, progress.set id (.done value), expanded ++ [id], x'⟩ := by
  have hget : ∀ j, (progress.set id (.done value))[j]? =
      if id = j then some (.done value) else progress[j]? := fun j => Array.getElem?_set hlt
  have hold : progress[id]? = some .onPath := (h.path id).2 List.mem_cons_self
  obtain ⟨hlead, habove⟩ := List.pairwise_cons.1 h.above
  obtain ⟨hdeps, hsupplied⟩ := h.supplied
  have hnot : .finish id ∉ stack := fun hmem => (hlead _ hmem id rfl).1 rfl
  have hnew : id ∉ expanded := by
    rw [← h.done id]
    rintro ⟨v, hv⟩
    rw [hold] at hv
    cases hv
  refine ⟨by rw [Array.size_set]; exact h.size, fun j => ?_, fun j => ?_,
    h.ordered.snoc ⟨_, hargs⟩ hnew hdeps, habove, Supplied.mono hsupplied ?_, fun j hj => ?_⟩
  · change (progress.set id _)[j]? = _ ↔ _
    rw [hget]
    split
    · next heq => simpa [← heq] using hnot
    · next hne =>
      have := h.path j
      simpa [Ne.symm hne] using this
  · change (∃ v, (progress.set id _)[j]? = _) ↔ _
    rw [hget, List.mem_append, List.mem_singleton, ← h.done j]
    split
    · next heq => simp [heq]
    · next hne => simp [Ne.symm hne]
  · intro j hj
    rw [List.mem_append, List.mem_singleton]
    exact (List.mem_cons.1 hj).symm
  · rcases h.covered j hj with hj | hj | ⟨step, hstep, rfl⟩
    · exact .inl (List.mem_append_left _ hj)
    · exact .inr (.inl hj)
    · rcases List.mem_cons.1 hstep with rfl | hstep
      · exact .inl (List.mem_append_right _ (List.mem_singleton_self _))
      · exact .inr (.inr ⟨step, hstep, rfl⟩)

end Turns

theorem Threaded.turn {w w' : Walk} (h : s.Threaded w) (ht : s.Turn limit w w') : s.Threaded w' := by
  cases ht with
  | root => exact h.root
  | skip hargs hdone => exact h.skip hdone
  | enter hargs hlt hwaits hstack => exact h.enter hargs hlt hwaits hstack
  | expand hargs hlt hvalue => exact h.expand hargs hlt

theorem Threaded.reaches {w w' : Walk} (h : s.Threaded w) (hr : s.Reaches limit w w') :
    s.Threaded w' := by
  induction hr with
  | refl => exact h
  | tail _ ht ih => exact ih.turn ht

/-- When the arguments of a node are resolved, everything that they mention is done. -/
theorem Threaded.mentioned_done {w : Walk} (h : s.Threaded w) {id : Nat} {stack : List Step}
    (hstack : w.stack = .finish id :: stack) {j : Nat} (hj : s.DependsOn id j) :
    ∃ v, w.progress[j]? = some (.done v) := by
  have hsupplied := h.supplied
  rw [hstack] at hsupplied
  exact (h.done j).2 (hsupplied.1 j hj)

theorem Threaded.arguments_done {w : Walk} (h : s.Threaded w) {id : Nat} {stack : List Step}
    (hstack : w.stack = .finish id :: stack) {node : PendingNode} {args : List Element}
    (hargs : s.argsOf id = .ok (node, args)) :
    ∀ j ∈ Element.pendingsOf args, ∃ v, w.progress[j]? = some (.done v) :=
  fun _ hj => h.mentioned_done hstack ((mem_pendingsOf_iff hargs).1 hj)

/-- A node comes off the stack to be entered only if it is not on the path. -/
theorem Threaded.not_onPath {w : Walk} (h : s.Threaded w) {id : Nat}
    (hstack : w.stack = .enter id :: stack) : w.progress[id]? ≠ some .onPath := by
  intro hpath
  have hmem := (h.path id).1 hpath
  have habove := h.above
  rw [hstack] at hmem habove
  have hmem := (List.mem_cons.1 hmem).resolve_left fun heq => by cases heq
  exact ((List.pairwise_cons.1 habove).1 _ hmem id rfl).1 rfl

/-- An entered node that mentions a node on the path closes a cycle. -/
theorem Threaded.onCycle_of_mentioned {w : Walk} (h : s.Threaded w) {id j : Nat}
    (hstack : w.stack = .enter id :: stack) (hlt : id < w.progress.size) (hj : s.DependsOn id j)
    (hpath : (w.progress.set id .onPath)[j]? = some .onPath) : s.OnCycle j := by
  rw [Array.getElem?_set] at hpath
  split at hpath
  · next heq => exact .single (heq ▸ hj)
  · have hmem := (h.path j).1 hpath
    have habove := h.above
    rw [hstack] at hmem habove
    have hmem := (List.mem_cons.1 hmem).resolve_left fun heq => by cases heq
    exact ((List.pairwise_cons.1 habove).1 _ hmem j rfl).2.tail hj

theorem Ordered.defined {ids : List Nat} (h : s.Ordered ids) :
    ∀ id ∈ ids, ∃ p, s.argsOf id = .ok p := by
  induction h with
  | nil => exact List.forall_mem_nil _
  | snoc _ hdefined _ _ ih =>
    intro i hi
    rcases List.mem_append.1 hi with hi | hi
    · exact ih i hi
    · exact List.mem_singleton.1 hi ▸ hdefined

/-- Ordered nodes lead to ordered nodes only. -/
theorem Ordered.closed {ids : List Nat} (h : s.Ordered ids) {i j : Nat} (hi : i ∈ ids)
    (hij : ReflTransGen s.DependsOn i j) : j ∈ ids := by
  induction h generalizing i with
  | nil => cases hi
  | @snoc ids id _ _ _ hdeps ih =>
    rcases List.mem_append.1 hi with hi | hi
    · exact List.mem_append_left _ (ih hi hij)
    · obtain rfl := List.mem_singleton.1 hi
      rcases ReflTransGen.cases_head hij with rfl | ⟨k, hk, hkj⟩
      · exact List.mem_append_right _ (List.mem_singleton_self _)
      · exact List.mem_append_left _ (ih (hdeps k hk) hkj)

theorem Ordered.not_onCycle {ids : List Nat} (h : s.Ordered ids) : ∀ i ∈ ids, ¬ s.OnCycle i := by
  induction h with
  | nil => exact List.forall_mem_nil _
  | snoc hids _ hnew hdeps ih =>
    intro i hi hcycle
    rcases List.mem_append.1 hi with hi | hi
    · exact ih i hi hcycle
    · obtain rfl := List.mem_singleton.1 hi
      obtain ⟨k, hk, hki⟩ := TransGen.head'_iff.1 hcycle
      exact hnew (hids.closed (hdeps k hk) hki)

/-- At the end of the walk everything is expanded. -/
theorem Threaded.mem_expanded {progress : Array Progress} {expanded : List Nat} {x : Expansion}
    (h : s.Threaded ⟨[], [], progress, expanded, x⟩) {id : Nat} (hid : id < s.size) : id ∈ expanded := by
  rcases h.covered id hid with hid | hid | ⟨step, hstep, -⟩
  · exact hid
  · cases hid
  · cases hstep

/-- A walk that comes to its end has expanded every node, each after what it mentions. -/
theorem ordered_of_walkAll {x x' : Expansion} {progress : Array Progress}
    (h : s.walkAll limit x = .ok progress x') : ∃ ids, s.Ordered ids ∧ ∀ i < s.size, i ∈ ids := by
  obtain ⟨expanded, hr⟩ := (walkAll_follows x).of_ok h
  have hend := (threaded_start s x).reaches hr
  exact ⟨expanded, hend.ordered, fun i hi => hend.mem_expanded hi⟩

theorem acyclic_of_walkAll {x x' : Expansion} {progress : Array Progress}
    (h : s.walkAll limit x = .ok progress x') : s.Acyclic ∧ s.FullyDefined := by
  obtain ⟨ids, hordered, hall⟩ := ordered_of_walkAll h
  refine ⟨fun i hcycle => ?_, fun node hnode => ?_⟩
  · obtain ⟨k, hk, -⟩ := TransGen.head'_iff.1 hcycle
    exact hordered.not_onCycle i (hall i hk.lt_size) hcycle
  · obtain ⟨i, hi, rfl⟩ := List.getElem_of_mem hnode
    rw [Array.length_toList] at hi
    obtain ⟨⟨node, args⟩, hargs⟩ := hordered.defined i (hall i hi)
    obtain ⟨hp, ha⟩ := argsOf_eq_ok_iff.1 hargs
    rw [Array.getElem?_eq_getElem hi] at hp
    cases hp
    rw [Array.getElem_toList, ha]
    rfl

end SoundGraph.Sketch
