import SoundGraph.Proofs.Traversal.Continuation
import SoundGraph.Proofs.Traversal.Origins

/-! The walk over a sketch with one more node that has its arguments. Nothing mentions the new node, so it comes
last in the order; and before its turn its entry of the progress table only waits. So the longer walk is the
shorter one and then the expansion of the new node, wherever the one or the other stops. -/

namespace SoundGraph.Sketch

open Expanding Relation

def MentionsBelow (n : Nat) (args : List Element) : Prop := ∀ e ∈ args, ∀ j, e.Mentions j → j < n

/-- No cycle, and every node there with its arguments: the walk comes to every node, whatever it finds there. -/
structure Complete (s : Sketch) : Prop where
  acyclic : s.Acyclic
  inScope : s.Scoped
  defined : s.FullyDefined

variable {s s' : Sketch} {limit : Nat} {node : PendingNode} {args : List Element}

theorem complete_of_walkAll {x x' : Expansion} {progress : Array Progress}
    (h : s.walkAll limit x = .ok progress x') : s.Complete :=
  ⟨(acyclic_of_walkAll h).1, scoped_of_walkAll h, (acyclic_of_walkAll h).2⟩

theorem Continues.label_eq (h : s.Continues s') {id : Nat} (hid : id < s.size) : s'.label id = s.label id := by
  have hget : s.pending[id]? = some s.pending[id] := Array.getElem?_eq_getElem hid
  rw [label, label, getElem?_mono h.pending hget, hget]

section Resolution

variable {p q : Array Progress}

/-- An element resolves alike if what it mentions has the same entries and labels. -/
theorem resolve_congr (x : Expansion) {e : Element}
    (h : ∀ j, e.Mentions j → q[j]? = p[j]? ∧ s'.label j = s.label j) : s'.resolve q x e = s.resolve p x e := by
  induction e using Element.induction with
  | const v => rfl
  | out source => rfl
  | pending id =>
    obtain ⟨hentry, hlabel⟩ := h id .pending
    simp only [resolve, hentry, hlabel]
  | bundle es ih =>
    have hall : ∀ e ∈ es, s'.resolve q x e = s.resolve p x e :=
      fun e he => ih e he fun j hj => h j (.bundle he hj)
    rw [resolve, resolve, resolveAll_congr hall]

theorem Continues.expandNode_eq (h : s.Continues s') {n : Nat} (hn : n ≤ s.size)
    (hentries : ∀ j < n, q[j]? = p[j]?) (hargs : MentionsBelow n args) (node : PendingNode) :
    s'.expandNode limit q node args = s.expandNode limit p node args := by
  have hall : ∀ x, s'.resolveAll q x args = s.resolveAll p x args := by
    intro x
    refine resolveAll_congr fun e he => resolve_congr x fun j hj => ?_
    have hlt := hargs e he j hj
    exact ⟨hentries j hlt, h.label_eq (Nat.lt_of_lt_of_le hlt hn)⟩
  simp only [expandNode, hall]

end Resolution

section Order

variable {ids : List Nat}

/-- What was in order is so in a longer sketch. -/
theorem Continues.ordered (h : s.Continues s') (hids : s.Ordered ids) : s'.Ordered ids := by
  induction hids with
  | nil => exact .nil
  | snoc _ hdefined hnew hdeps ih =>
    obtain ⟨⟨node, args⟩, hargs⟩ := hdefined
    refine ih.snoc ⟨_, h.argsOf hargs⟩ hnew fun j hj => hdeps j ?_
    rw [← mem_pendingsOf_iff (h.argsOf hargs)] at hj
    rwa [← mem_pendingsOf_iff hargs]

theorem argsOf_record (hnode : node.args = some args) :
    (s.record node).2.argsOf s.size = .ok (node, args) :=
  argsOf_eq_ok_iff.2 ⟨Array.getElem?_push_size, hnode⟩

theorem size_record (s : Sketch) (node : PendingNode) : (s.record node).2.size = s.size + 1 :=
  Array.size_push ..

/-- The new node can be put behind the others. -/
theorem Complete.ordered_record (h : s.Complete) (hnode : node.args = some args)
    (hargs : MentionsBelow s.size args) : (s.record node).2.Ordered (s.postOrder h.acyclic ++ [s.size]) := by
  have hold := ((Continues.refl s).record node).ordered (ordered_postOrder (h := h.acyclic) h.inScope h.defined)
  have hmem : ∀ {id}, id ∈ s.postOrder h.acyclic ↔ id < s.size := mem_postOrder h.inScope h.defined
  refine hold.snoc ⟨_, argsOf_record hnode⟩ (fun hid => Nat.lt_irrefl _ (hmem.1 hid)) fun j hj => hmem.2 ?_
  rw [← mem_pendingsOf_iff (argsOf_record hnode), Element.pendingsOf_eq, List.mem_flatMap] at hj
  obtain ⟨e, he, hj⟩ := hj
  exact hargs e he j (Element.mem_pendings_iff.1 hj)

theorem Complete.record (h : s.Complete) (hnode : node.args = some args) (hargs : MentionsBelow s.size args) :
    (s.record node).2.Complete := by
  refine ⟨fun i hcycle => ?_, h.inScope.record fun args' hsome => ?_, fun n hn => ?_⟩
  · obtain ⟨k, hk, -⟩ := TransGen.head'_iff.1 hcycle
    refine (h.ordered_record hnode hargs).not_onCycle i ?_ hcycle
    have hi := hk.lt_size
    rw [size_record] at hi
    rw [List.mem_append, List.mem_singleton, mem_postOrder h.inScope h.defined]
    omega
  · rw [hnode] at hsome
    cases hsome
    exact hargs
  · rw [Sketch.record, Array.toList_push, List.mem_append, List.mem_singleton] at hn
    rcases hn with hn | rfl
    · exact h.defined n hn
    · rw [hnode]
      rfl

theorem Complete.postOrder_record (h : s.Complete) (hnode : node.args = some args)
    (hargs : MentionsBelow s.size args) (h' : (s.record node).2.Acyclic) :
    (s.record node).2.postOrder h' = s.postOrder h.acyclic ++ [s.size] := by
  have hcont := (Continues.refl s).record node
  have hold : (List.range s.size).foldl ((s.record node).2.visit h') [] = s.postOrder h.acyclic :=
    foldl_congr_of_mem (fun done id hid => hcont.visit_eq h.inScope h.defined (List.mem_range.1 hid) done) []
  have hmem : ∀ {id}, id ∈ s.postOrder h.acyclic ↔ id < s.size := mem_postOrder h.inScope h.defined
  rw [postOrder, size_record, List.range_succ, List.foldl_append, hold, List.foldl_cons, List.foldl_nil,
    visit_of_not_mem fun hid => Nat.lt_irrefl _ (hmem.1 hid)]
  congr 1
  -- everything that it mentions has been visited
  refine List.foldlRecOn (motive := fun done => done = s.postOrder h.acyclic) _ _ rfl fun done hdone j hj => ?_
  rw [hdone]
  refine visit_of_mem (hmem.2 ?_)
  rw [dependencies_of_argsOf (argsOf_record hnode), Element.pendingsOf_eq, List.mem_flatMap] at hj
  obtain ⟨e, he, hj⟩ := hj
  exact hargs e he j (Element.mem_pendings_iff.1 hj)

end Order

section Run

variable {p : Array Progress} {id : Nat}

theorem getElem?_push_of_lt {α : Type} {a : Array α} {j : Nat} (hj : j < a.size) (v : α) :
    (a.push v)[j]? = a[j]? := by
  rw [Array.getElem?_push_lt hj, Array.getElem?_eq_getElem hj]

theorem size_of_walkAll {x x' : Expansion} (h : s.walkAll limit x = .ok p x') : p.size = s.size := by
  obtain ⟨hacyclic, hscoped, hdefined⟩ := complete_of_walkAll h
  rw [walkAll_eq_expandInOrder hacyclic hscoped hdefined] at h
  exact size_of_expandInOrder h

/-- A walk that comes to its end leaves a signal for every node. -/
theorem done_of_walkAll {x x' : Expansion} (h : s.walkAll limit x = .ok p x') {j : Nat} (hj : j < s.size) :
    ∃ v, p[j]? = some (.done v) := by
  obtain ⟨expanded, hr⟩ := (walkAll_follows x).of_ok h
  have hend := (threaded_start s x).reaches hr
  exact (hend.done j).2 (hend.mem_expanded hj)

theorem widens_expandOne (p : Array Progress) (id : Nat) : Widens (s.expandOne limit p id) :=
  composes_widens.bind (widens_check _) fun (_, _) _ =>
    composes_widens.bind (composes_widens.bind (widens_check _) fun _ _ => widens_perform _) fun _ _ =>
      composes_widens.pure _

/-- A walk that comes to its end has performed the script of every node at some moment. The arguments of the node
resolve at the end to the signals that the script got then. -/
theorem performed_of_walkAll {x x' : Expansion} (h : s.walkAll limit x = .ok p x')
    (hargs : s.argsOf id = .ok (node, args)) :
    ∃ signals value x₁ x₂, x.Within x₁ ∧
      Expanding.perform limit (node.generator.script node.rule signals) x₁ = .ok value x₂ ∧ x₂.Within x' ∧
      p[id]? = some (.done value) ∧ s.resolveAll p x' args = .ok signals := by
  obtain ⟨hacyclic, hscoped, hdefined⟩ := complete_of_walkAll h
  obtain ⟨hnode, hsome⟩ := argsOf_eq_ok_iff.1 hargs
  have hid : id < s.size := (Array.getElem?_eq_some_iff.1 hnode).1
  have hordered := ordered_postOrder (h := hacyclic) hscoped hdefined
  obtain ⟨before, after, hsplit⟩ := List.append_of_mem ((mem_postOrder (h := hacyclic) hscoped hdefined).2 hid)
  rw [walkAll_eq_expandInOrder hacyclic hscoped hdefined, hsplit] at h
  obtain ⟨node', args', value, q, x₁, x₂, hbefore, hargs', hvalue, hafter⟩ := turn_of_expandInOrder h
  cases hargs.symm.trans hargs'
  obtain ⟨hkept, hstay⟩ :=
    kept_of_foldlM_expandOne (hsplit ▸ hordered.nodup) (size_of_expandInOrder hbefore ▸ hid) hafter
  obtain ⟨signals, _, hcheck, hperform⟩ := run_bind_eq_ok_iff.1 hvalue
  obtain ⟨hall, rfl⟩ := run_check_eq_ok_iff.1 hcheck
  have hrun : ∀ ids q, Widens (List.foldlM (s.expandOne limit) q ids) := fun ids q =>
    composes_widens.foldlM widens_expandOne ids q
  have hlater := hrun after _ _ _ _ hafter
  refine ⟨signals, value, _, x₂, hrun before _ _ _ _ hbefore, hperform, hlater, hkept, ?_⟩
  rw [resolveAll_eq_mapM] at hall ⊢
  refine mapM_mono (fun e he signal => resolve_mono (fun j v hj hv => ?_)
    ((widens_perform _ _ _ _ hperform).trans hlater)) hall
  rw [hstay j (hordered.mentioned_before hsplit ⟨node, args, hnode, hsome, e, he, hj⟩), hv]

theorem expandOne_of_argsOf (hargs : s.argsOf id = .ok (node, args)) :
    s.expandOne limit p id =
      s.expandNode limit p node args >>= fun value => pure (p.setIfInBounds id (.done value)) := by
  rw [expandOne, hargs]
  rfl

/-- An old node is expanded as before, whatever entry stands behind the others. -/
theorem Complete.expandOne_record (h : s.Complete) (hsize : p.size = s.size)
    (hid : id < s.size) (node : PendingNode) (entry : Progress) :
    (s.record node).2.expandOne limit (p.push entry) id =
      s.expandOne limit p id >>= fun q => pure (q.push entry) := by
  have hcont := (Continues.refl s).record node
  obtain ⟨⟨old, args⟩, hargs⟩ := h.defined.exists_argsOf hid
  have hbelow : MentionsBelow s.size args := by
    intro e he j hj
    obtain ⟨hp, ha⟩ := argsOf_eq_ok_iff.1 hargs
    exact h.inScope id j ⟨old, args, hp, ha, e, he, hj⟩
  have hentries : ∀ j < s.size, (p.push entry)[j]? = p[j]? := fun j hj => getElem?_push_of_lt (hsize ▸ hj) _
  have hwrite : ∀ v, (p.push entry).setIfInBounds id v = (p.setIfInBounds id v).push entry := by
    intro v
    refine Array.toList_inj.1 ?_
    rw [Array.toList_setIfInBounds, Array.toList_push, Array.toList_push, Array.toList_setIfInBounds,
      List.set_append_left _ _ (by simpa [hsize] using hid)]
  rw [expandOne_of_argsOf (hcont.argsOf hargs), expandOne_of_argsOf hargs, bind_assoc,
    hcont.expandNode_eq (Nat.le_refl _) hentries hbelow old]
  simp only [pure_bind, hwrite]

theorem Complete.foldlM_expandOne_record (h : s.Complete) {ids : List Nat} (hids : ∀ id ∈ ids, id < s.size)
    (hsize : p.size = s.size) (node : PendingNode) (entry : Progress) :
    ids.foldlM ((s.record node).2.expandOne limit) (p.push entry) =
      ids.foldlM (s.expandOne limit) p >>= fun q => pure (q.push entry) := by
  induction ids generalizing p with
  | nil => simp only [List.foldlM_nil, pure_bind]
  | cons id ids ih =>
    obtain ⟨hid, hids⟩ := List.forall_mem_cons.1 hids
    obtain ⟨⟨old, args⟩, hargs⟩ := h.defined.exists_argsOf hid
    rw [List.foldlM_cons, List.foldlM_cons, h.expandOne_record hsize hid,
      expandOne_of_argsOf hargs]
    simp only [bind_assoc, pure_bind]
    exact bind_congr fun value => ih hids (by rw [Array.size_setIfInBounds, hsize])

/-- The longer walk comes to what the walk and then the expansion of the new node come to. -/
theorem Complete.walkAll_record (h : s.Complete) (hnode : node.args = some args)
    (hargs : MentionsBelow s.size args) (x : Expansion) :
    (s.record node).2.walkAll limit x = (s.walkAll limit >>= fun p =>
      s.expandNode limit p node args >>= fun value => pure (p.push (.done value))) x := by
  have hcont := (Continues.refl s).record node
  have h' := h.record hnode hargs
  have hmem : ∀ {id}, id ∈ s.postOrder h.acyclic ↔ id < s.size := mem_postOrder h.inScope h.defined
  have hwalk : ∀ x, s.walkAll limit x = s.expandInOrder limit (s.postOrder h.acyclic) x :=
    walkAll_eq_expandInOrder h.acyclic h.inScope h.defined
  rw [walkAll_eq_expandInOrder h'.acyclic h'.inScope h'.defined, h.postOrder_record hnode hargs h'.acyclic,
    expandInOrder_concat]
  have hwaiting : Array.replicate (s.record node).2.size Progress.waiting =
      (Array.replicate s.size .waiting).push .waiting := by
    rw [size_record, Array.replicate_succ]
  have hfirst : (s.record node).2.expandInOrder limit (s.postOrder h.acyclic) =
      s.expandInOrder limit (s.postOrder h.acyclic) >>= fun p => pure (p.push .waiting) := by
    rw [expandInOrder, hwaiting]
    exact h.foldlM_expandOne_record (fun id hid => hmem.1 hid) Array.size_replicate node .waiting
  rw [hfirst, bind_assoc]
  refine run_bind_congr (hwalk x).symm fun p x' hres => ?_
  have hsize := size_of_walkAll hres
  have hentries : ∀ j < s.size, (p.push .waiting)[j]? = p[j]? := fun j hj => getElem?_push_of_lt (hsize ▸ hj) _
  have hwrite : ∀ entry, (p.push .waiting).setIfInBounds s.size entry = p.push entry := by
    intro entry
    refine Array.toList_inj.1 ?_
    rw [Array.toList_setIfInBounds, Array.toList_push, Array.toList_push, ← hsize]
    simp
  rw [pure_bind, expandOne_of_argsOf (argsOf_record hnode), hcont.expandNode_eq (Nat.le_refl _) hentries hargs]
  simp only [hwrite]

/-- An extension without new controls starts from the same table. -/
theorem Continues.expand_eq {s' : Sketch} (h : s.Continues s') {act : Expanding (Array Progress)}
    (hwalk : s'.walkAll limit s.controlTable = act s.controlTable) :
    s'.expand limit .empty = (s.emitControls limit >>= fun _ => act) .empty := by
  have hsame : s'.emitControls limit = s.emitControls limit := by rw [emitControls, emitControls, h.groups]
  rw [expand, hsame]
  refine run_bind_congr rfl fun u x hx => ?_
  rw [controlTable_of_emitControls hx]
  exact hwalk

/-- The new node is expanded in the light of the old ones. -/
theorem Complete.expand_record (h : s.Complete) (hnode : node.args = some args)
    (hargs : MentionsBelow s.size args) {x : Expansion} (hx : s.expand limit .empty = .ok p x)
    {signals : List Signal} (hsignals : s.resolveAll p x args = .ok signals) :
    (s.record node).2.expand limit .empty =
      (Expanding.perform limit (node.generator.script node.rule signals) >>= fun value =>
        pure (p.push (.done value))) x := by
  rw [((Continues.refl s).record node).expand_eq (h.walkAll_record hnode hargs _)]
  obtain ⟨⟨⟩, x₁, hcontrols, hwalk⟩ := run_bind_eq_ok_iff.1 hx
  simp only [Bind.bind, EStateM.bind, expandNode, check, hcontrols, hwalk, hsignals]

def recordAll (s : Sketch) (nodes : List PendingNode) : Sketch := nodes.foldl (fun s node => (s.record node).2) s

theorem recordAll_concat (s : Sketch) (nodes : List PendingNode) (node : PendingNode) :
    s.recordAll (nodes ++ [node]) = ((s.recordAll nodes).record node).2 :=
  List.foldl_append

theorem continues_recordAll (s : Sketch) (nodes : List PendingNode) : s.Continues (s.recordAll nodes) := by
  induction nodes using List.reverseRecOn with
  | nil => exact .refl s
  | append_singleton nodes node ih =>
    rw [recordAll_concat]
    exact ih.record node

theorem size_recordAll (s : Sketch) (nodes : List PendingNode) : (s.recordAll nodes).size = s.size + nodes.length := by
  induction nodes using List.reverseRecOn with
  | nil => rfl
  | append_singleton nodes node ih =>
    rw [recordAll_concat, size_record, ih, List.length_append]
    rfl

/-- Recording a batch of nodes that mention old ones only. -/
theorem Complete.recordAll (h : s.Complete) {g : Generator} {rule : RateRule} {batch : List (List Element)}
    (hbatch : ∀ args ∈ batch, MentionsBelow s.size args) :
    (s.recordAll (batch.map fun args => ⟨g, rule, some args⟩)).Complete := by
  induction batch using List.reverseRecOn with
  | nil => exact h
  | append_singleton batch args ih =>
    have hargs := hbatch args (List.mem_append_right _ (List.mem_singleton_self args))
    rw [List.map_append, List.map_singleton, recordAll_concat]
    refine (ih fun args' hmem => hbatch args' (List.mem_append_left _ hmem)).record rfl fun e he j hj => ?_
    rw [size_recordAll]
    exact Nat.lt_add_right _ (hargs e he j hj)

/-- The walk over a batch of new nodes: the old walk, and each new node in the light of the old ones. -/
theorem Complete.walkAll_recordAll (h : s.Complete) {g : Generator} {rule : RateRule}
    {batch : List (List Element)} (hbatch : ∀ args ∈ batch, MentionsBelow s.size args) (x : Expansion) :
    (s.recordAll (batch.map fun args => ⟨g, rule, some args⟩)).walkAll limit x =
      (s.walkAll limit >>= fun p =>
        batch.mapM (fun args => s.expandNode limit p ⟨g, rule, some args⟩ args) >>= fun values =>
          pure (p ++ (values.map Progress.done).toArray)) x := by
  induction batch using List.reverseRecOn generalizing x with
  | nil =>
    simp [Sketch.recordAll]
  | append_singleton batch args ih =>
    have hargs := hbatch args (List.mem_append_right _ (List.mem_singleton_self args))
    have hold : ∀ args' ∈ batch, MentionsBelow s.size args' := fun args' hmem =>
      hbatch args' (List.mem_append_left _ hmem)
    have hcont := continues_recordAll s (batch.map fun args => ⟨g, rule, some args⟩)
    have hbelow : MentionsBelow (s.recordAll (batch.map fun args => ⟨g, rule, some args⟩)).size args :=
      fun e he j hj => Nat.lt_of_lt_of_le (hargs e he j hj) hcont.size_le
    rw [List.map_append, List.map_singleton, recordAll_concat, (h.recordAll hold).walkAll_record rfl hbelow,
      run_bind_congr (ih hold x) fun _ _ _ => rfl, bind_assoc]
    refine run_bind_congr rfl fun p x' hres => ?_
    have hentries : ∀ (values : List Signal), ∀ j < s.size,
        (p ++ (values.map Progress.done).toArray)[j]? = p[j]? :=
      fun values j hj => Array.getElem?_append_left (size_of_walkAll hres ▸ hj)
    have hlast : ∀ values : List Signal, (s.recordAll (batch.map fun args => ⟨g, rule, some args⟩)).expandNode limit
        (p ++ (values.map Progress.done).toArray) ⟨g, rule, some args⟩ args =
          s.expandNode limit p ⟨g, rule, some args⟩ args :=
      fun values => hcont.expandNode_eq (Nat.le_refl _) (hentries values) hargs _
    simp only [bind_assoc, pure_bind, hlast, List.mapM_append, List.mapM_cons, List.mapM_nil]
    simp

end Run

end SoundGraph.Sketch
