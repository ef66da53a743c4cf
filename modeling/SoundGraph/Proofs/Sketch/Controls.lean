import Mathlib
import SoundGraph.Compile
import SoundGraph.Proofs.Sketch.Calls

/-! The controls of a sketch and the control array that they are compiled to. Calls keep the controls
grouped: each has a slot of its own in a group of its rate, and the groups count just these. A group
takes the places after those of the groups before it, so the control array has neither gaps nor
overlaps, in whichever order the controls were declared. -/

namespace SoundGraph.Sketch

structure Grouped (s : Sketch) : Prop where
  group : ∀ c ∈ s.controls.toList, ∃ g, s.groups[c.group]? = some g ∧ g.rate = c.rate ∧ c.slot < g.count
  rates : ∀ (k : Nat) g, s.groups[k]? = some g → g.rate ≠ .demand
  distinct : (s.controls.toList.map fun c => (c.group, c.slot)).Nodup
  total : s.controls.size = (s.groups.toList.map ControlGroup.count).sum

theorem grouped_empty : ({} : Sketch).Grouped := ⟨by simp, by simp, by simp, rfl⟩

variable {s s' : Sketch}

/-- The group of a rate, if it is open, has that rate. -/
theorem rate_groupOf {rate : Rate} {g : ControlGroup} (h : s.groups[s.groupOf rate]? = some g) :
    g.rate = rate := by
  obtain ⟨hlt, rfl⟩ := Array.getElem?_eq_some_iff.1 h
  exact of_decide_eq_true (Array.findIdx_getElem (w := hlt))

theorem getElem?_enlargeGroup {k : Nat} (hk : k ≤ s.groups.size) (rate : Rate) (i : Nat) :
    (enlargeGroup s.groups k rate)[i]? =
      if i = k then some ⟨rate, s.groupCount k + 1⟩ else s.groups[i]? := by
  unfold enlargeGroup groupCount
  split
  · next hlt =>
    rw [Array.getElem?_set hlt, Array.getElem?_eq_getElem hlt]
    simp only [eq_comm]
  · next hge =>
    obtain rfl : k = s.groups.size := by omega
    rw [Array.getElem?_push, Array.getElem?_eq_none (Nat.le_refl _)]

theorem sum_enlargeGroup (k : Nat) (rate : Rate) :
    ((enlargeGroup s.groups k rate).toList.map ControlGroup.count).sum =
      (s.groups.toList.map ControlGroup.count).sum + 1 := by
  unfold enlargeGroup
  split
  · next hlt =>
    have hlen : k < (s.groups.toList.map ControlGroup.count).length := by simpa using hlt
    have hset := List.sum_set (s.groups.toList.map ControlGroup.count) k (s.groups[k].count + 1)
    have htake := List.sum_take_succ _ k hlen
    have hdrop := List.sum_take_add_sum_drop (s.groups.toList.map ControlGroup.count) (k + 1)
    rw [if_pos hlen] at hset
    rw [List.getElem_map, Array.getElem_toList] at htake
    rw [Array.toList_set, List.map_set, hset]
    omega
  · simp

/-- Calls that only touch the pending nodes. -/
theorem Grouped.of_pending (h : s.Grouped) (pending : Array PendingNode) :
    Grouped { s with pending } :=
  ⟨h.group, h.rates, h.distinct, h.total⟩

theorem Grouped.slot_lt (h : s.Grouped) {c : ControlDecl} (hc : c ∈ s.controls.toList) :
    c.slot < s.groupCount c.group := by
  obtain ⟨g, hg, -, hslot⟩ := h.group c hc
  rwa [groupCount, hg]

/-- A control opens a group, or joins one behind its last slot. -/
theorem Grouped.control (h : s.Grouped) {name : String} {rate : Rate} {default : Sample} {e : Element}
    (hok : s.control name rate default = .ok (e, s')) : s'.Grouped := by
  obtain ⟨hrate, -, rfl, rfl⟩ := eq_of_control hok
  have hget := getElem?_enlargeGroup (s := s) (k := s.groupOf rate) Array.findIdx_le_size rate
  refine ⟨fun c hc => ?_, fun k g hg => ?_, ?_, ?_⟩
  · rw [Array.toList_push] at hc
    rcases List.mem_append.1 hc with hc | hc
    · obtain ⟨g, hg, hgr, hslot⟩ := h.group c hc
      by_cases heq : c.group = s.groupOf rate
      · have hnext := h.slot_lt hc
        rw [heq] at hg hnext
        exact ⟨_, by rw [hget, if_pos heq], by rw [← hgr, rate_groupOf hg], Nat.lt_succ_of_lt hnext⟩
      · exact ⟨g, by rw [hget, if_neg heq, hg], hgr, hslot⟩
    · rw [List.mem_singleton.1 hc]
      exact ⟨_, by rw [hget, if_pos rfl], rfl, Nat.lt_succ_self _⟩
  · rw [hget] at hg
    split at hg
    · cases hg
      exact hrate
    · exact h.rates k g hg
  · rw [Array.toList_push, List.map_append, List.map_singleton]
    refine h.distinct.append (List.nodup_singleton _) ?_
    rw [List.disjoint_singleton, List.mem_map]
    intro hmem
    obtain ⟨c, hc, heq⟩ := hmem
    obtain ⟨hgroup, hslot⟩ := Prod.mk.inj heq
    have hlt := h.slot_lt hc
    rw [hgroup, hslot] at hlt
    exact Nat.lt_irrefl _ hlt
  · rw [Array.size_push, h.total, sum_enlargeGroup]

theorem Grouped.perform (h : s.Grouped) (call : Call) : (s.perform call).2.Grouped := by
  refine perform_keeps h call (fun _ _ _ _ _ hok => ?_) (fun _ _ => h.of_pending _) (fun _ _ _ hok => ?_)
    fun _ _ _ _ _ _ hok => h.control hok
  · obtain ⟨pending, rfl⟩ := pending_of_addWith hok
    exact h.of_pending pending
  · obtain ⟨pending, rfl⟩ := pending_of_define hok
    exact h.of_pending pending

theorem Grouped.run (h : s.Grouped) (calls : List Call) : (s.run calls).Grouped :=
  run_keeps (fun _ h call => h.perform call) h calls

def before (s : Sketch) (k : Nat) : Nat := ((s.groups.toList.map ControlGroup.count).take k).sum

theorem before_succ (s : Sketch) (k : Nat) : s.before (k + 1) = s.before k + s.groupCount k := by
  unfold groupCount before
  cases hg : s.groups[k]? with
  | some g =>
    obtain ⟨hlt, rfl⟩ := Array.getElem?_eq_some_iff.1 hg
    rw [List.sum_take_succ _ k (by simpa using hlt), List.getElem_map, Array.getElem_toList]
  | none =>
    have hlen : (s.groups.toList.map ControlGroup.count).length ≤ k := by simpa using hg
    rw [List.take_of_length_le hlen, List.take_of_length_le (Nat.le_succ_of_le hlen), Nat.add_zero]

theorem before_mono {k k' : Nat} (h : k ≤ k') : s.before k ≤ s.before k' :=
  List.monotone_sum_take _ h

theorem getElem?_groupOffsets {k : Nat} (hk : k < s.groups.size) :
    s.groupOffsets[k]? = some (s.before k) := by
  have hfold : ∀ gs : List ControlGroup,
      let p := gs.foldl (fun p g => (p.1.push p.2, p.2 + g.count)) ((#[], 0) : Array Nat × Nat)
      p.1.size = gs.length ∧ p.2 = (gs.map ControlGroup.count).sum ∧
        ∀ k < gs.length, p.1[k]? = some ((gs.map ControlGroup.count).take k).sum := by
    intro gs
    induction gs using List.reverseRecOn with
    | nil => simp
    | append_singleton gs g ih =>
      obtain ⟨hsize, hnext, hget⟩ := ih
      rw [List.foldl_append]
      refine ⟨by simp [hsize], by simp [hnext], fun k hk => ?_⟩
      rw [List.length_append, List.length_singleton] at hk
      change (Array.push _ _)[k]? = _
      rw [Array.getElem?_push, hsize, List.map_append]
      split
      · next heq => simp [heq, hnext]
      · rw [hget k (by omega), List.take_append_of_le_length (by rw [List.length_map]; omega)]
  rw [groupOffsets, ← Array.foldl_toList]
  exact (hfold s.groups.toList).2.2 k (by rwa [Array.length_toList])

def recordOf (s : Sketch) (c : ControlDecl) : Control :=
  { name := c.name, rate := c.rate, default := c.default, index := s.before c.group + c.slot }

theorem Grouped.controlPool_eq (h : s.Grouped) :
    s.controlPool =
      .ok ((s.controls.toList.map s.recordOf).mergeSort fun a b => a.index ≤ b.index).toArray := by
  have hrecords : s.controls.toList.mapM (controlRecord s.groupOffsets) =
      .ok (s.controls.toList.map s.recordOf) := by
    rw [mapM_eq_ok_iff, List.forall₂_map_right_iff, List.forall₂_same]
    intro c hc
    obtain ⟨g, hg, -⟩ := h.group c hc
    rw [controlRecord, getElem?_groupOffsets (Array.getElem?_eq_some_iff.1 hg).1]
    rfl
  rw [controlPool, hrecords]
  rfl

theorem Grouped.before_le_size (h : s.Grouped) (k : Nat) : s.before k ≤ s.controls.size := by
  rw [h.total]
  exact (List.take_sublist _ _).sum_le_sum fun _ _ => Nat.zero_le _

/-- The places of the first groups. -/
theorem Grouped.index_lt_before_iff (h : s.Grouped) {c : ControlDecl} (hc : c ∈ s.controls.toList) (k : Nat) :
    (s.recordOf c).index < s.before k ↔ c.group < k := by
  change s.before c.group + c.slot < s.before k ↔ c.group < k
  refine ⟨fun hlt => ?_, fun hlt => ?_⟩
  · by_contra hge
    have hle := before_mono (s := s) (Nat.le_of_not_lt hge)
    omega
  · have hslot := h.slot_lt hc
    have hle := before_mono (s := s) (Nat.succ_le_of_lt hlt)
    rw [before_succ] at hle
    omega

theorem Grouped.index_lt (h : s.Grouped) {c : ControlDecl} (hc : c ∈ s.controls.toList) :
    (s.recordOf c).index < s.controls.size := by
  obtain ⟨g, hg, -⟩ := h.group c hc
  have hgroup := (Array.getElem?_eq_some_iff.1 hg).1
  exact Nat.lt_of_lt_of_le ((h.index_lt_before_iff hc _).2 hgroup) (h.before_le_size s.groups.size)

/-- Groups take places one after another, so a place determines the group and the slot. -/
theorem Grouped.index_inj (h : s.Grouped) {c d : ControlDecl} (hc : c ∈ s.controls.toList)
    (hd : d ∈ s.controls.toList) (heq : (s.recordOf c).index = (s.recordOf d).index) :
    (c.group, c.slot) = (d.group, d.slot) := by
  have hapart : ∀ c ∈ s.controls.toList, ∀ d, c.group < d.group → (s.recordOf c).index < (s.recordOf d).index :=
    fun c hc d hlt => Nat.lt_of_lt_of_le ((h.index_lt_before_iff hc d.group).2 hlt) (Nat.le_add_right _ d.slot)
  rcases Nat.lt_trichotomy c.group d.group with hlt | hgroup | hlt
  · exact absurd heq (Nat.ne_of_lt (hapart c hc d hlt))
  · simp only [recordOf, hgroup, Nat.add_left_cancel_iff] at heq
    rw [hgroup, heq]
  · exact absurd heq.symm (Nat.ne_of_lt (hapart d hd c hlt))

theorem Grouped.perm_of_controlPool (h : s.Grouped) {pool : Array Control} (hpool : s.controlPool = .ok pool) :
    pool.toList.Perm (s.controls.toList.map s.recordOf) := by
  rw [h.controlPool_eq] at hpool
  cases hpool
  exact List.mergeSort_perm _ _

/-- The control array of grouped controls, all its places distinct and inside it. -/
theorem Grouped.controlPool_places (h : s.Grouped) :
    ∃ pool, s.controlPool = .ok pool ∧
      (∀ c ∈ pool.toList, c.rate ≠ .demand ∧ c.index < pool.size) ∧
      (pool.toList.map Control.index).Nodup := by
  have hperm := h.perm_of_controlPool h.controlPool_eq
  refine ⟨_, h.controlPool_eq, fun c hc => ?_, ?_⟩
  · rw [← Array.length_toList, hperm.length_eq, List.length_map, Array.length_toList]
    obtain ⟨d, hd, rfl⟩ := List.mem_map.1 (hperm.mem_iff.1 hc)
    obtain ⟨g, hg, hrate, -⟩ := h.group d hd
    exact ⟨fun hdemand => h.rates _ g hg (hrate.trans hdemand), h.index_lt hd⟩
  · rw [(hperm.map Control.index).nodup_iff, List.map_map]
    refine List.Nodup.map_on (fun c hc d hd heq => ?_) (List.Nodup.of_map _ h.distinct)
    exact List.inj_on_of_nodup_map h.distinct hc hd (h.index_inj hc hd heq)

theorem pairwise_mergeSort_index (cs : List Control) :
    (cs.mergeSort fun a b => a.index ≤ b.index).Pairwise fun a b => a.index ≤ b.index := by
  have hsorted : (cs.mergeSort fun a b => a.index ≤ b.index).Pairwise
      fun a b => decide (a.index ≤ b.index) = true := by
    apply List.pairwise_mergeSort
    · simp only [decide_eq_true_eq]
      omega
    · simp only [Bool.or_eq_true, decide_eq_true_eq]
      omega
  exact hsorted.imp of_decide_eq_true

/-- A control stands in the control array at its own index. -/
theorem Grouped.index_of_controlPool (h : s.Grouped) {pool : Array Control} (hpool : s.controlPool = .ok pool) :
    pool.toList.map Control.index = List.range pool.size := by
  obtain ⟨pool', hpool', hplaces, hnodup⟩ := h.controlPool_places
  obtain rfl := Except.ok.inj (hpool.symm.trans hpool')
  have hsub : pool.toList.map Control.index ⊆ List.range pool.size := by
    intro i hi
    obtain ⟨c, hc, rfl⟩ := List.mem_map.1 hi
    exact List.mem_range.2 (hplaces c hc).2
  have hperm : (pool.toList.map Control.index).Perm (List.range pool.size) :=
    (hnodup.subperm hsub).perm_of_length_le (by simp)
  have hsorted : (pool.toList.map Control.index).Pairwise (· ≤ ·) := by
    rw [h.controlPool_eq] at hpool
    cases hpool
    exact List.pairwise_map.2 (pairwise_mergeSort_index _)
  exact hperm.eq_of_pairwise' hsorted List.pairwise_le_range

end SoundGraph.Sketch
