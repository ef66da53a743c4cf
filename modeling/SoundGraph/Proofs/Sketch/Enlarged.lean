import SoundGraph.Proofs.Schedule.Raised
import SoundGraph.Proofs.Sketch.Handles

/-! One more control. It takes the place behind the last control of its group, so in the control array the groups up to
its own keep their places, and the controls of the later ones move by one. -/

namespace SoundGraph

def Control.moved (c : Control) : Control := { c with index := c.index + 1 }

/-- Records in order remain so when one is put in and those behind it make room. -/
theorem pairwise_moved {front back : List Control} {new : Control}
    (h : (front ++ back).Pairwise fun a b => a.index < b.index) (hfront : ∀ c ∈ front, c.index < new.index)
    (hback : ∀ c ∈ back, new.index ≤ c.index) :
    (front ++ new :: back.map Control.moved).Pairwise fun a b => a.index < b.index := by
  obtain ⟨hf, hb, -⟩ := List.pairwise_append.1 h
  have hmoved : ∀ c ∈ back.map Control.moved, new.index < c.index := by
    intro c hc
    obtain ⟨b, hb, rfl⟩ := List.mem_map.1 hc
    exact Nat.lt_succ_of_le (hback b hb)
  refine List.pairwise_append.2 ⟨hf, List.pairwise_cons.2 ⟨hmoved, ?_⟩, fun a ha c hc => ?_⟩
  · exact List.pairwise_map.2 (hb.imp fun hlt => Nat.succ_lt_succ hlt)
  · rcases List.mem_cons.1 hc with rfl | hc
    · exact hfront a ha
    · exact Nat.lt_trans (hfront a ha) (hmoved c hc)

/-- Those that make room are the ones from place `n` on. -/
theorem map_raise_index {front back : List Control} {n : Nat} (hfront : ∀ c ∈ front, c.index < n)
    (hback : ∀ c ∈ back, n ≤ c.index) :
    (front ++ back).map (fun c => { c with index := raise n 1 c.index }) = front ++ back.map Control.moved := by
  rw [List.map_append]
  congr 1
  · refine (List.map_congr_left fun c hc => ?_).trans (List.map_id front)
    rw [raise_of_lt (hfront c hc)]
    rfl
  · refine List.map_congr_left fun c hc => ?_
    rw [raise_of_le (hback c hc)]
    rfl

namespace Sketch

variable {s s' : Sketch} {name : String} {rate : Rate} {default : Sample} {handle : Element}

theorem getElem?_groups_control (hok : s.control name rate default = .ok (handle, s')) (i : Nat) :
    s'.groups[i]? =
      if i = s.groupOf rate then some ⟨rate, s.groupCount (s.groupOf rate) + 1⟩ else s.groups[i]? := by
  obtain ⟨-, -, -, hs'⟩ := eq_of_control hok
  rw [hs']
  exact getElem?_enlargeGroup Array.findIdx_le_size rate i

theorem size_groups_control (hok : s.control name rate default = .ok (handle, s')) :
    s'.groups.size = s.groups.size + if s.groupOf rate < s.groups.size then 0 else 1 := by
  obtain ⟨-, -, -, hs'⟩ := eq_of_control hok
  rw [hs']
  dsimp only
  unfold enlargeGroup
  split
  · rw [Array.size_set, Nat.add_zero]
  · rw [Array.size_push]

theorem groupCount_control (hok : s.control name rate default = .ok (handle, s')) (k : Nat) :
    s'.groupCount k = s.groupCount k + if k = s.groupOf rate then 1 else 0 := by
  rw [groupCount, getElem?_groups_control hok]
  by_cases heq : k = s.groupOf rate
  · rw [if_pos heq, if_pos heq, heq]
  · rw [if_neg heq, if_neg heq]
    rfl

theorem before_control (hok : s.control name rate default = .ok (handle, s')) (k : Nat) :
    s'.before k = s.before k + if s.groupOf rate < k then 1 else 0 := by
  induction k with
  | zero => rfl
  | succ k ih =>
    rw [before_succ, before_succ, ih, groupCount_control hok]
    split <;> split <;> split <;> omega

/-- The records of the earlier controls, and of the new one. -/
theorem recordOf_control (h : s.Grouped) (hok : s.control name rate default = .ok (handle, s')) :
    s'.controls.toList.map s'.recordOf =
      (s.controls.toList.map s.recordOf).map (fun c =>
          { c with index := raise (s.before (s.groupOf rate + 1)) 1 c.index }) ++
        [⟨name, rate, default, s.before (s.groupOf rate + 1)⟩] := by
  have hbefore := before_control hok
  obtain ⟨-, -, -, hs'⟩ := eq_of_control hok
  have hcontrols := congrArg Sketch.controls hs'
  dsimp only at hcontrols
  rw [hcontrols, Array.toList_push, List.map_append, List.map_map]
  congr 1
  · refine List.map_congr_left fun c hc => ?_
    have hplace := h.index_lt_before_iff hc (s.groupOf rate + 1)
    have hindex : (s.recordOf c).index = s.before c.group + c.slot := rfl
    simp only [recordOf, Function.comp_apply, hbefore, Control.mk.injEq, true_and]
    rw [← hindex, raise]
    split <;> split <;> omega
  · simp only [List.map_singleton, recordOf, hbefore, before_succ, if_neg (Nat.lt_irrefl _)]
    rfl

/-- A control array in its order. -/
theorem Grouped.pairwise_controlPool (h : s.Grouped) {pool : Array Control} (hpool : s.controlPool = .ok pool) :
    pool.toList.Pairwise fun a b => a.index < b.index := by
  have hlt := List.pairwise_lt_range (n := pool.size)
  rw [← h.index_of_controlPool hpool] at hlt
  exact List.pairwise_map.1 hlt

/-- The control array up to place `n`, and from there on. -/
theorem Grouped.controlPool_split (h : s.Grouped) {pool : Array Control} (hpool : s.controlPool = .ok pool) (n : Nat) :
    (∀ c ∈ pool.toList.take n, c.index < n) ∧ ∀ c ∈ pool.toList.drop n, n ≤ c.index := by
  have hindex := h.index_of_controlPool hpool
  refine ⟨fun c hc => ?_, fun c hc => ?_⟩
  · have hmem := List.mem_map_of_mem (f := Control.index) hc
    rw [List.map_take, hindex, List.take_range, List.mem_range] at hmem
    omega
  · have hmem := List.mem_map_of_mem (f := Control.index) hc
    rw [List.map_drop, hindex, List.range_eq_range', List.drop_range', List.mem_range'_1] at hmem
    omega

/-- The new record stands behind those of the groups up to its own, and in front of the others, which move by one. -/
theorem Grouped.controlPool_control (h : s.Grouped) {ds : List Declared} (hds : s.Records ds)
    (hok : s.control name rate default = .ok (handle, s')) {pool : Array Control} (hpool : s.controlPool = .ok pool) :
    ∃ front back : List Control, pool.toList = front ++ back ∧
      s'.controlPool =
        .ok (List.toArray (front ++ ⟨name, rate, default, front.length⟩ :: back.map Control.moved)) ∧
      (∀ c ∈ front, (firstRates ds).idxOf c.rate ≤ (firstRates ds).idxOf rate) ∧
      ∀ c ∈ back, (firstRates ds).idxOf rate < (firstRates ds).idxOf c.rate := by
  have hperm := h.perm_of_controlPool hpool
  have hsorted := h.pairwise_controlPool hpool
  have hrecords := recordOf_control h hok
  have hle := h.before_le_size (s.groupOf rate + 1)
  have hplace : ∀ c ∈ s.controls.toList, (s.recordOf c).index < s.before (s.groupOf rate + 1) ↔
      (firstRates ds).idxOf c.rate ≤ (firstRates ds).idxOf rate := by
    intro c hc
    rw [h.index_lt_before_iff hc, Nat.lt_succ_iff, hds.group_eq h hc, hds.groupOf_eq_idxOf]
  generalize s.before (s.groupOf rate + 1) = n at hrecords hle hplace
  obtain ⟨hfront, hback⟩ := h.controlPool_split hpool n
  have hsplit := List.take_append_drop n pool.toList
  have hlength : (pool.toList.take n).length = n := by
    rw [List.length_take, hperm.length_eq, List.length_map, Array.length_toList]
    omega
  generalize pool.toList.take n = front at hfront hsplit hlength
  generalize pool.toList.drop n = back at hback hsplit
  have hdecl : ∀ c ∈ front ++ back, ∃ decl ∈ s.controls.toList, c = s.recordOf decl := by
    intro c hc
    obtain ⟨decl, hmem, rfl⟩ := List.mem_map.1 (hperm.mem_iff.1 (hsplit ▸ hc))
    exact ⟨decl, hmem, rfl⟩
  refine ⟨front, back, hsplit.symm, ?_, fun c hc => ?_, fun c hc => ?_⟩
  · obtain ⟨pool', hpool', -⟩ := (h.control hok).controlPool_places
    have hperm' := (h.control hok).perm_of_controlPool hpool'
    rw [hrecords] at hperm'
    replace hperm' := hperm'.trans ((hperm.symm.map _).append_right _)
    rw [← hsplit, map_raise_index hfront hback, List.append_assoc] at hperm'
    replace hperm' := hperm'.trans ((List.perm_append_singleton _ _).append_left front)
    -- both are in the order of their indices, so the same records stand in the same places
    rw [hpool', hlength]
    exact congrArg _ (Array.ext' (hperm'.eq_of_pairwise (fun a b _ _ hab hba => absurd hab (Nat.lt_asymm hba))
      ((h.control hok).pairwise_controlPool hpool') (pairwise_moved (hsplit ▸ hsorted) hfront hback)))
  · obtain ⟨decl, hmem, rfl⟩ := hdecl c (List.mem_append_left _ hc)
    exact (hplace decl hmem).1 (hfront _ hc)
  · obtain ⟨decl, hmem, rfl⟩ := hdecl c (List.mem_append_right _ hc)
    exact Nat.lt_of_not_le fun hle => Nat.not_lt_of_le (hback _ hc) ((hplace decl hmem).2 hle)

end Sketch

end SoundGraph
