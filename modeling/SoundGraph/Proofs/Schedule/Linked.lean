import Mathlib.Data.Finset.Card
import SoundGraph.Proofs.Schedule.Merged
import SoundGraph.Schedule.Sort

/-! The links among kept nodes. Every link runs from an earlier kept node to a later one, and the degree
of a node is the number of kept nodes that it waits for, each counted once even if it is read through
several inputs or is also the effect before it. -/

namespace SoundGraph

def IsKept (kept : Array (Option EmittedNode)) (i : Nat) : Prop := ∃ node, kept[i]? = some (some node)

def ReadsKept (kept : Array (Option EmittedNode)) : Prop :=
  ∀ (i : Nat) node, kept[i]? = some (some node) → ∀ j, node.Reads j → j < i ∧ IsKept kept j

def waiting (dependents : Array (List Nat)) (d : Nat) : List Nat := dependents.getD d []

/-- The nodes that node `i` waits for, the emitted ones left out. -/
def blockers (dependents : Array (List Nat)) (emitted : List Nat) (i : Nat) : Finset Nat :=
  {d ∈ Finset.range dependents.size | d ∉ emitted ∧ i ∈ waiting dependents d}

theorem mem_blockers {dependents : Array (List Nat)} {emitted : List Nat} {i d : Nat} :
    d ∈ blockers dependents emitted i ↔ d ∉ emitted ∧ i ∈ waiting dependents d := by
  rw [blockers, Finset.mem_filter, Finset.mem_range]
  refine ⟨fun h => h.2, fun h => ⟨?_, h⟩⟩
  by_contra hge
  have hnil : waiting dependents d = [] := by
    rw [waiting, Array.getD_eq_getD_getElem?, Array.getElem?_eq_none (Nat.le_of_not_lt hge)]
    rfl
  rw [hnil] at h
  exact List.not_mem_nil h.2

namespace Links

structure Sound (kept : Array (Option EmittedNode)) (l : Links) : Prop where
  size : l.dependents.size = kept.size
  bound : l.degrees.size ≤ kept.size
  nodup : ∀ d, (waiting l.dependents d).Nodup
  forward : ∀ d i, i ∈ waiting l.dependents d →
    d < i ∧ i < l.degrees.size ∧ IsKept kept d ∧ IsKept kept i
  degree : ∀ i < l.degrees.size, l.degrees[i]? = some (blockers l.dependents [] i).card
  effect : ∀ e, l.lastEffect = some e → e < l.degrees.size ∧ IsKept kept e

theorem sound_empty (kept : Array (Option EmittedNode)) : (empty kept.size).Sound kept := by
  have hnil : ∀ d, waiting (empty kept.size).dependents d = [] := by
    intro d
    simp only [waiting, empty, Array.getD_eq_getD_getElem?, Array.getElem?_replicate]
    split <;> rfl
  refine ⟨by simp [empty], by simp [empty], ?_, ?_, by simp [empty], by simp [empty]⟩
  · intro d
    rw [hnil]
    exact List.nodup_nil
  · intro d i hi
    rw [hnil] at hi
    cases hi

theorem mem_dependencies {lastEffect : Option Nat} {node : EmittedNode} {d : Nat} :
    d ∈ (dependencies lastEffect node).toList ↔
      node.Reads d ∨ node.flags.sideEffect = true ∧ lastEffect = some d := by
  rw [Std.TreeSet.mem_toList, dependencies, Std.TreeSet.mem_ofList, List.contains_iff_mem,
    List.mem_append, List.mem_filterMap]
  refine or_congr ?_ ?_
  · refine ⟨?_, ?_⟩
    · intro h
      rcases h with ⟨input, hin, hd⟩
      cases input with
      | constant index => cases hd
      | node source =>
        cases hd
        exact ⟨source.output, hin⟩
    · intro h
      rcases h with ⟨output, hin⟩
      exact ⟨.node ⟨d, output⟩, hin, rfl⟩
  · cases node.flags.sideEffect <;> cases lastEffect <;> simp [eq_comm]

theorem nodup_dependencies (lastEffect : Option Nat) (node : EmittedNode) :
    (dependencies lastEffect node).toList.Nodup := by
  refine (Std.TreeSet.distinct_toList (t := dependencies lastEffect node)).imp ?_
  intro a b h heq
  exact h (Std.compare_eq_iff_eq.2 heq)

/-- Node `i` joins the lists of the nodes that it waits for. -/
theorem foldlM_addDependent (i : Nat) {deps : List Nat} (dependents : Array (List Nat))
    (hnd : deps.Nodup) (hlt : ∀ d ∈ deps, d < dependents.size) :
    ∃ dependents', deps.foldlM (addDependent i) dependents = .ok dependents' ∧
      dependents'.size = dependents.size ∧
      ∀ d, waiting dependents' d =
        if d ∈ deps then i :: waiting dependents d else waiting dependents d := by
  induction deps generalizing dependents with
  | nil => exact ⟨dependents, rfl, rfl, by simp⟩
  | cons a deps ih =>
    obtain ⟨ha, hnd⟩ := List.nodup_cons.1 hnd
    have hsize := hlt a List.mem_cons_self
    obtain ⟨dependents', hfold, hsize', hget⟩ := ih (dependents.set a (i :: dependents[a])) hnd
      fun d hd => by
        rw [Array.size_set]
        exact hlt d (List.mem_cons_of_mem _ hd)
    refine ⟨dependents', ?_, by rw [hsize', Array.size_set], fun d => ?_⟩
    · rw [List.foldlM_cons, addDependent, dif_pos hsize]
      exact hfold
    · rw [hget]
      by_cases hd : d = a
      · subst hd
        simp [ha, waiting, hsize]
      · simp [waiting, hd, Array.getElem?_set_ne hsize (Ne.symm hd)]

/-- One more node, which waits for `deps`. -/
theorem Sound.extend {kept : Array (Option EmittedNode)} {l : Links} (h : l.Sound kept) {deps : List Nat}
    {dependents : Array (List Nat)} {effect : Option Nat} (hlt : l.degrees.size < kept.size)
    (hnd : deps.Nodup)
    (hdeps : ∀ d ∈ deps, d < l.degrees.size ∧ IsKept kept d ∧ IsKept kept l.degrees.size)
    (hsize : dependents.size = l.dependents.size)
    (hget : ∀ d, waiting dependents d =
      if d ∈ deps then l.degrees.size :: waiting l.dependents d else waiting l.dependents d)
    (heffect : ∀ e, effect = some e → e < l.degrees.size + 1 ∧ IsKept kept e) :
    Sound kept ⟨l.degrees.push deps.length, dependents, effect⟩ := by
  have hfresh : ∀ d, l.degrees.size ∉ waiting l.dependents d := by
    intro d hd
    obtain ⟨-, hlt, -, -⟩ := h.forward d _ hd
    omega
  have hmem : ∀ d i, i ∈ waiting dependents d ↔
      i = l.degrees.size ∧ d ∈ deps ∨ i ∈ waiting l.dependents d := by
    intro d i
    rw [hget]
    split <;> simp_all
  refine ⟨hsize.trans h.size, by rwa [Array.size_push], fun d => ?_, fun d i hi => ?_, fun i hi => ?_,
    fun e he => by rw [Array.size_push]; exact heffect e he⟩
  · change (waiting dependents d).Nodup
    rw [hget]
    split
    · exact List.nodup_cons.2 ⟨hfresh d, h.nodup d⟩
    · exact h.nodup d
  · rw [Array.size_push]
    rcases (hmem d i).1 hi with ⟨rfl, hd⟩ | hi
    · obtain ⟨hdi, hkd, hki⟩ := hdeps d hd
      exact ⟨hdi, by omega, hkd, hki⟩
    · obtain ⟨hdi, hib, hkd, hki⟩ := h.forward d i hi
      exact ⟨hdi, by omega, hkd, hki⟩
  · rw [Array.size_push] at hi
    change (l.degrees.push _)[i]? = some (blockers dependents [] i).card
    rw [Array.getElem?_push]
    split
    · next heq =>
      have hset : blockers dependents [] i = deps.toFinset := by
        ext d
        rw [mem_blockers, hmem, List.mem_toFinset, heq]
        simp [hfresh]
      rw [hset, List.toFinset_card_of_nodup hnd]
    · next hne =>
      have hset : blockers dependents [] i = blockers l.dependents [] i := by
        ext d
        rw [mem_blockers, mem_blockers, hmem]
        simp [hne]
      rw [hset]
      exact h.degree i (by omega)

/-- A dropped node waits for nothing, and nothing waits for it. -/
theorem Sound.step_none {kept : Array (Option EmittedNode)} {l : Links} (h : l.Sound kept)
    (hlt : l.degrees.size < kept.size) : Sound kept { l with degrees := l.degrees.push 0 } := by
  refine h.extend hlt List.nodup_nil (by simp) rfl (by simp) fun e he => ?_
  obtain ⟨hlt, hk⟩ := h.effect e he
  exact ⟨Nat.lt_succ_of_lt hlt, hk⟩

theorem Sound.step_some {kept : Array (Option EmittedNode)} {l : Links} {node : EmittedNode}
    (h : l.Sound kept) (hback : ReadsKept kept)
    (hnode : kept[l.degrees.size]? = some (some node)) :
    ∃ l', l.step (some node) = .ok l' ∧ l'.Sound kept ∧ l'.degrees.size = l.degrees.size + 1 := by
  have hlt : l.degrees.size < kept.size := (Array.getElem?_eq_some_iff.1 hnode).1
  have hnd := nodup_dependencies l.lastEffect node
  have hdeps : ∀ d ∈ (dependencies l.lastEffect node).toList,
      d < l.degrees.size ∧ IsKept kept d ∧ IsKept kept l.degrees.size := by
    intro d hd
    rcases mem_dependencies.1 hd with hr | ⟨-, he⟩
    · exact ⟨(hback _ node hnode d hr).1, (hback _ node hnode d hr).2, node, hnode⟩
    · exact ⟨(h.effect d he).1, (h.effect d he).2, node, hnode⟩
  obtain ⟨dependents, hfold, hsize, hget⟩ := foldlM_addDependent l.degrees.size l.dependents hnd
    fun d hd => by
      have := (hdeps d hd).1
      rw [h.size]
      omega
  have heffect : ∀ e, (if node.flags.sideEffect then some l.degrees.size else l.lastEffect) = some e →
      e < l.degrees.size + 1 ∧ IsKept kept e := by
    intro e he
    split at he
    · cases he
      exact ⟨Nat.lt_succ_self _, node, hnode⟩
    · obtain ⟨hlt, hk⟩ := h.effect e he
      exact ⟨Nat.lt_succ_of_lt hlt, hk⟩
  have hsound := h.extend hlt hnd hdeps hsize hget heffect
  rw [Std.TreeSet.length_toList] at hsound
  exact ⟨_, by rw [step, hfold]; rfl, hsound, Array.size_push ..⟩

/-- By induction on the nodes that are still to be read. -/
theorem sound_foldlM {kept : Array (Option EmittedNode)} (hback : ReadsKept kept)
    (before after : List (Option EmittedNode)) (hkept : kept.toList = before ++ after) {l : Links}
    (h : l.Sound kept) (hl : l.degrees.size = before.length) :
    ∃ l', after.foldlM step l = .ok l' ∧ l'.Sound kept ∧ l'.degrees.size = kept.size := by
  induction after generalizing before l with
  | nil =>
    have hsize := congrArg List.length hkept
    simp only [List.append_nil, Array.length_toList] at hsize
    exact ⟨l, rfl, h, by omega⟩
  | cons entry after ih =>
    have hget : kept[l.degrees.size]? = some entry := by
      rw [← Array.getElem?_toList, hkept, hl]
      simp
    have hnext : kept.toList = (before ++ [entry]) ++ after := by simp [hkept]
    rw [List.foldlM_cons]
    cases entry with
    | none =>
      have hlt := (Array.getElem?_eq_some_iff.1 hget).1
      exact ih (before ++ [none]) hnext (h.step_none hlt) (by simp [hl])
    | some node =>
      obtain ⟨l', hstep, hs, hsize⟩ := h.step_some hback hget
      rw [hstep]
      exact ih (before ++ [some node]) hnext hs (by simp [hsize, hl])

theorem sound_ofKept {kept : Array (Option EmittedNode)} (hback : ReadsKept kept) :
    ∃ l, ofKept kept = .ok l ∧ l.Sound kept ∧ l.degrees.size = kept.size :=
  sound_foldlM hback [] kept.toList rfl (sound_empty kept) rfl

end Links

end SoundGraph
