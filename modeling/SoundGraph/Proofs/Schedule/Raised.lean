import Mathlib.Data.List.ReduceOption
import SoundGraph.Proofs.Schedule.Repeated

/-! Insertion ahead of a table. When the first nodes of a table, which read nothing, make room for others, all later
nodes get higher numbers, where they stand and where they are read. What is kept of them is renumbered as before, and
their new numbers are higher by as much. -/

namespace SoundGraph

/-- Number `i` once `d` numbers have been inserted in front of number `k`. -/
def raise (k d i : Nat) : Nat := if i < k then i else i + d

section Raise

variable {α β : Type} {k d i j : Nat}

theorem raise_of_lt (h : i < k) : raise k d i = i := if_pos h

theorem raise_of_le (h : k ≤ i) : raise k d i = i + d := if_neg (Nat.not_lt_of_le h)

theorem raise_zero (k : Nat) : raise k 0 = id := by
  funext i
  exact ite_self _

theorem strictMono_raise (k d : Nat) : StrictMono (raise k d) := by
  intro i j hlt
  unfold raise
  split <;> split <;> omega

theorem exists_raise_eq (h : k + d ≤ j) : ∃ i, k ≤ i ∧ j = raise k d i :=
  ⟨j - d, by omega, by rw [raise_of_le (by omega)]; omega⟩

/-- Behind the insertion the entries follow as before. -/
theorem getElem?_raise {head : List α} (hlen : head.length = k + d) (hi : k ≤ i) (rest : List α) :
    (head ++ rest)[raise k d i]? = rest[i - k]? := by
  rw [raise_of_le hi, List.getElem?_append_right (by omega)]
  congr 1
  omega

end Raise

section Survivors

variable {kept : Array (Option EmittedNode)}

/-- The nodes that are kept, in their order. -/
theorem mapM_survivor (kept : Array (Option EmittedNode)) :
    (survivors kept).mapM (survivor kept) = .ok kept.toList.reduceOption := by
  obtain ⟨entries⟩ := kept
  rw [mapM_eq_ok_iff]
  simp only [survivor_eq_ok_iff, List.getElem?_toArray]
  induction entries using List.reverseRecOn with
  | nil => exact .nil
  | append_singleton entries entry ih =>
    have hpre : entries <+: entries ++ [entry] := List.prefix_append _ _
    have hsurvivors : survivors (entries ++ [entry]).toArray = _ := survivors_append hpre
    rw [hsurvivors, List.reduceOption_append]
    refine List.rel_append (ih.imp fun i n hn => ?_) ?_
    · rw [List.getElem?_append_left (List.getElem?_eq_some_iff.1 hn).1, hn]
    · cases entry with
      | none => simp [List.reduceOption]
      | some node => simp [List.reduceOption]

/-- Where the first entries are nodes, these survive, and of the others those that did. -/
theorem survivors_headed {head : List EmittedNode} {rest : List (Option EmittedNode)}
    (h : kept.toList = head.map some ++ rest) :
    survivors kept = List.range head.length ++ (survivors rest.toArray).map (head.length + ·) := by
  have hsize : kept.size = head.length + rest.length := by simpa using congrArg List.length h
  have hget : ∀ i, kept[i]? = (head.map some ++ rest)[i]? := fun i => by rw [← h, Array.getElem?_toList]
  rw [survivors, hsize, List.range_add, List.filter_append, List.filter_map]
  congr 1
  · refine List.filter_eq_self.2 fun i hi => ?_
    have hlt := List.mem_range.1 hi
    rw [Array.getD_eq_getD_getElem?, hget, List.getElem?_append_left (by simpa using hlt), List.getElem?_map,
      List.getElem?_eq_getElem hlt]
    rfl
  · rw [survivors, List.size_toArray]
    congr 1
    refine List.filter_congr fun i hi => ?_
    rw [Function.comp_apply, Array.getD_eq_getD_getElem?, Array.getD_eq_getD_getElem?, hget,
      List.getElem?_append_right (by simp), List.getElem?_toArray, List.length_map, Nat.add_sub_cancel_left]

end Survivors

section Renumber

variable {α β γ δ : Type} {f : Nat → Nat} {position position' : Array Nat} {constants : Array Sample}

theorem mapM_map_comm {m : Type → Type} [Monad m] [LawfulMonad m] {act : α → m β} {act' : γ → m δ} {g : α → γ}
    {h : β → δ} {as : List α} (hcomm : ∀ a ∈ as, act' (g a) = h <$> act a) :
    (as.map g).mapM act' = List.map h <$> as.mapM act := by
  induction as with
  | nil => simp
  | cons a as ih =>
    obtain ⟨ha, has⟩ := List.forall_mem_cons.1 hcomm
    rw [List.map_cons, List.mapM_cons, List.mapM_cons, ha, ih has]
    simp

theorem renumberInput_redirect {input : Input}
    (h : ∀ source, input = .node source →
      ∃ p, position[source.node]? = some p ∧ position'[f source.node]? = some (f p)) :
    renumberInput position' constants (input.redirect f) =
      Input.redirect f <$> renumberInput position constants input := by
  cases input with
  | constant c => simp [Input.redirect, renumberInput]
  | node source =>
    obtain ⟨p, hp, hp'⟩ := h source rfl
    rw [Input.redirect, renumberInput, renumberInput, hp, hp']
    rfl

/-- A node that reads renumbered nodes is renumbered to one that reads the renumbered ones of those. -/
theorem renumberNode_redirect {node : EmittedNode}
    (h : ∀ i, node.Reads i → ∃ p, position[i]? = some p ∧ position'[f i]? = some (f p)) :
    renumberNode position' constants (node.redirect f) =
      EmittedNode.redirect f <$> renumberNode position constants node := by
  have hinputs : (node.inputs.map (Input.redirect f)).mapM (renumberInput position' constants) =
      List.map (Input.redirect f) <$> node.inputs.mapM (renumberInput position constants) := by
    refine mapM_map_comm fun input hin => renumberInput_redirect ?_
    rintro source rfl
    exact h source.node ⟨source.output, hin⟩
  rw [renumberNode, renumberNode, EmittedNode.redirect, hinputs]
  simp [EmittedNode.redirect]

theorem mapM_renumberNode_of_nil {nodes : List EmittedNode} (h : ∀ n ∈ nodes, n.inputs = []) :
    nodes.mapM (renumberNode position constants) = pure nodes := by
  induction nodes with
  | nil => rfl
  | cons n nodes ih =>
    obtain ⟨hn, hnodes⟩ := List.forall_mem_cons.1 h
    have hone : renumberNode position constants n = pure n := by
      rw [renumberNode, hn, List.mapM_nil, pure_bind, ← hn]
    rw [List.mapM_cons, hone, ih hnodes]
    simp

end Renumber

section Insertion

variable {head head' out : List EmittedNode} {rest : List (Option EmittedNode)}
  {kept kept' : Array (Option EmittedNode)} {d : Nat} {constants pool : Array Sample}

/-- A node that survives does so at its new number, and is higher among the survivors by as much. -/
theorem getElem?_survivors_raise (hlen : head'.length = head.length + d) (hkept : kept.toList = head.map some ++ rest)
    (hkept' : kept'.toList = head'.map some ++ rest.map (Option.map (EmittedNode.redirect (raise head.length d))))
    {p i : Nat} (h : (survivors kept)[p]? = some i) :
    (survivors kept')[raise head.length d p]? = some (raise head.length d i) := by
  have hsame : survivors (rest.map (Option.map (EmittedNode.redirect (raise head.length d)))).toArray =
      survivors rest.toArray := by
    rw [survivors, survivors, List.size_toArray, List.size_toArray, List.length_map]
    refine List.filter_congr fun i _ => ?_
    rw [Array.getD_eq_getD_getElem?, Array.getD_eq_getD_getElem?, List.getElem?_toArray, List.getElem?_toArray,
      List.getElem?_map]
    rcases rest[i]? with _ | _ | node <;> rfl
  rw [survivors_headed hkept] at h
  rw [survivors_headed hkept', hsame, hlen]
  rcases Nat.lt_or_ge p head.length with hlt | hge
  · rw [List.getElem?_append_left (by simpa using hlt), List.getElem?_range hlt, Option.some.injEq] at h
    subst h
    rw [raise_of_lt hlt, List.getElem?_append_left (by rw [List.length_range]; omega), List.getElem?_range (by omega)]
  · rw [List.getElem?_append_right (by simpa using hge), List.length_range, List.getElem?_map,
      Option.map_eq_some_iff] at h
    obtain ⟨j, hj, rfl⟩ := h
    rw [getElem?_raise (by simp) hge, List.getElem?_map, hj, Option.map_some, raise_of_le (Nat.le_add_right _ _)]
    congr 1
    omega

/-- Other nodes in front of those that are kept: these come out in front, and the others with higher numbers. -/
theorem renumber_raise (hlen : head'.length = head.length + d) (hkept : kept.toList = head.map some ++ rest)
    (hkept' : kept'.toList = head'.map some ++ rest.map (Option.map (EmittedNode.redirect (raise head.length d))))
    (hhead : ∀ n ∈ head, n.inputs = []) (hhead' : ∀ n ∈ head', n.inputs = []) (hread : ReadsKept kept)
    (h : renumber kept constants (survivors kept).toArray = .ok (out, pool)) :
    ∃ tail, out = head ++ tail ∧ renumber kept' constants (survivors kept').toArray =
      .ok (head' ++ tail.map (EmittedNode.redirect (raise head.length d)), pool) := by
  obtain ⟨nodes, u, hnodes, hrun, rfl⟩ := renumber_eq_ok_iff.1 h
  have hsome : ∀ l : List EmittedNode, (l.map some).reduceOption = l := fun l => by simp [List.reduceOption]
  rw [List.toList_toArray, mapM_survivor, hkept, List.reduceOption_append, hsome] at hnodes
  obtain rfl := Except.ok.inj hnodes
  rw [List.mapM_append, mapM_renumberNode_of_nil hhead, pure_bind] at hrun
  obtain ⟨⟨tail, u₁⟩, htail, hdone⟩ := bind_eq_ok_iff.1 hrun
  cases hdone
  have hposition : ∀ i ∈ survivors kept, ∃ p, (positions kept.size (survivors kept).toArray)[i]? = some p ∧
      (positions kept'.size (survivors kept').toArray)[raise head.length d i]? = some (raise head.length d p) := by
    intro i hi
    have hplace := List.getElem?_eq_getElem (List.idxOf_lt_length_of_mem hi)
    rw [List.getElem_idxOf] at hplace
    obtain ⟨hlt, hnew⟩ := List.getElem?_eq_some_iff.1 (getElem?_survivors_raise hlen hkept hkept' hplace)
    refine ⟨_, getElem?_positions hi, ?_⟩
    rw [getElem?_positions (hnew ▸ List.getElem_mem hlt), ← hnew, (nodup_survivors kept').idxOf_getElem]
  have hrest : ∀ n ∈ rest.reduceOption, ∀ i, n.Reads i → i ∈ survivors kept := by
    intro n hn i hi
    have hmem : some n ∈ kept.toList := by
      rw [hkept]
      exact List.mem_append_right _ (List.reduceOption_mem_iff.1 hn)
    obtain ⟨j, hj⟩ := List.getElem?_of_mem hmem
    rw [Array.getElem?_toList] at hj
    exact mem_survivors.2 (hread j n hj i hi).2
  refine ⟨tail, rfl, renumber_eq_ok_iff.2
    ⟨head' ++ rest.reduceOption.map (EmittedNode.redirect (raise head.length d)), u, ?_, ?_, rfl⟩⟩
  · rw [List.toList_toArray, mapM_survivor, hkept', List.reduceOption_append, hsome, List.reduceOption_map]
  · rw [List.mapM_append, mapM_renumberNode_of_nil hhead', pure_bind,
      mapM_map_comm fun n hn => renumberNode_redirect fun i hi => hposition i (hrest n hn i hi)]
    rw [map_eq_pure_bind, bind_assoc]
    exact bind_eq_ok_iff.2 ⟨(tail, u), htail, rfl⟩

end Insertion

end SoundGraph
