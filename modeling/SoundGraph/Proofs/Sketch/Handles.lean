import SoundGraph.Proofs.Expansion.Sound
import SoundGraph.Proofs.Sketch.Controls

/-! What a run of calls records of its controls: every one that was declared with success, in order, and for
each rate among them a group, in the order of first use, with the number of controls at this rate. Later calls
only add to this, so the place in a group that a call has answered with stays that of its control. -/

namespace SoundGraph

structure Declared where
  name : String
  rate : Rate
  default : Sample
  deriving DecidableEq

def ControlDecl.declared (c : ControlDecl) : Declared := ⟨c.name, c.rate, c.default⟩

/-- The rates of the controls, in the order of their first use. -/
def firstRates (ds : List Declared) : List Rate := (ds.map Declared.rate).eraseDups

theorem eraseDups_concat {α : Type} [BEq α] [LawfulBEq α] (as : List α) (b : α) [Decidable (b ∈ as)] :
    (as ++ [b]).eraseDups = if b ∈ as then as.eraseDups else as.eraseDups ++ [b] := by
  rw [List.eraseDups_append]
  split
  · next h => simp [List.removeAll, h]
  · next h => simp [List.removeAll, h, List.eraseDups_cons]

theorem nodup_eraseDups {α : Type} [BEq α] [LawfulBEq α] (as : List α) : as.eraseDups.Nodup := by
  classical
  induction as using List.reverseRecOn with
  | nil => exact List.nodup_nil
  | append_singleton as a ih =>
    rw [eraseDups_concat]
    split
    · exact ih
    · next h =>
      refine ih.append (List.nodup_singleton a) (List.disjoint_singleton.2 fun hmem => h ?_)
      exact List.mem_eraseDups.1 hmem

namespace Sketch

def declares? (s : Sketch) : Call → Option Declared
  | .control name rate default =>
    match s.control name rate default with
    | .ok _ => some ⟨name, rate, default⟩
    | .error _ => none
  | _ => none

/-- The controls that a run of calls declares. -/
def declared (s : Sketch) : List Call → List Declared
  | [] => []
  | call :: calls => (s.declares? call).toList ++ (s.perform call).2.declared calls

/-- The sketch holds these controls, all of different names, and has counted them in a group for each rate. -/
structure Records (s : Sketch) (ds : List Declared) : Prop where
  controls : s.controls.toList.map ControlDecl.declared = ds
  names : (ds.map Declared.name).Nodup
  rates : s.groups.toList.map ControlGroup.rate = firstRates ds
  counts : ∀ (k : Nat) g, s.groups[k]? = some g → g.count = ds.countP (·.rate = g.rate)

theorem records_empty : ({} : Sketch).Records [] := ⟨rfl, List.nodup_nil, rfl, by simp⟩

variable {s s' : Sketch} {ds : List Declared}

theorem Records.of_pending (h : s.Records ds) (pending : Array PendingNode) :
    Records { s with pending } ds :=
  ⟨h.controls, h.names, h.rates, h.counts⟩

/-- A group is found under its rate. -/
theorem Records.groupOf_eq (h : s.Records ds) {k : Nat} {g : ControlGroup} (hg : s.groups[k]? = some g) :
    s.groupOf g.rate = k := by
  have hnodup : (s.groups.toList.map ControlGroup.rate).Nodup := h.rates ▸ nodup_eraseDups _
  have hlt : s.groupOf g.rate < s.groups.size :=
    Array.findIdx_lt_size_of_exists ⟨g, Array.mem_of_getElem? hg, by simp⟩
  have hfound := Array.getElem?_eq_getElem hlt
  have hrate := rate_groupOf hfound
  have hsame : (s.groups.toList.map ControlGroup.rate)[s.groupOf g.rate]? =
      (s.groups.toList.map ControlGroup.rate)[k]? := by
    simp only [List.getElem?_map, Array.getElem?_toList, hfound, hg, Option.map_some, hrate]
  exact (List.getElem?_inj (by simpa using hlt) hnodup).1 hsame

/-- Whether a rate is new is whether it has no group. -/
theorem Records.groupOf_lt_iff (h : s.Records ds) {rate : Rate} :
    s.groupOf rate < s.groups.size ↔ rate ∈ ds.map Declared.rate := by
  rw [← List.mem_eraseDups, ← firstRates, ← h.rates, List.mem_map]
  refine ⟨fun hlt => ?_, fun ⟨g, hg, hrate⟩ => ?_⟩
  · exact ⟨s.groups[s.groupOf rate], Array.getElem_mem_toList hlt, rate_groupOf (Array.getElem?_eq_getElem hlt)⟩
  · exact Array.findIdx_lt_size_of_exists ⟨g, Array.mem_toList_iff.1 hg, by simp [hrate]⟩

theorem Records.groupOf_eq_idxOf (h : s.Records ds) (rate : Rate) : s.groupOf rate = (firstRates ds).idxOf rate := by
  obtain ⟨pending, controls, ⟨gs⟩⟩ := s
  have hrates : gs.map ControlGroup.rate = firstRates ds := h.rates
  rw [← hrates, List.idxOf, List.findIdx_map, groupOf, List.findIdx_toArray]
  rfl

/-- A control is in the group of its rate. -/
theorem Records.group_eq (h : s.Records ds) (hs : s.Grouped) {c : ControlDecl} (hc : c ∈ s.controls.toList) :
    c.group = (firstRates ds).idxOf c.rate := by
  obtain ⟨g, hg, hrate, -⟩ := hs.group c hc
  rw [← hrate, ← h.groupOf_eq_idxOf, h.groupOf_eq hg]

/-- A rate that has no group yet has been counted as often as it was used, not at all. -/
theorem Records.groupCount_groupOf (h : s.Records ds) (rate : Rate) :
    s.groupCount (s.groupOf rate) = ds.countP (·.rate = rate) := by
  unfold groupCount
  by_cases hlt : s.groupOf rate < s.groups.size
  · obtain ⟨g, hg⟩ : ∃ g, s.groups[s.groupOf rate]? = some g := ⟨_, Array.getElem?_eq_getElem hlt⟩
    rw [hg, ← rate_groupOf hg]
    exact h.counts _ _ hg
  · rw [Array.getElem?_eq_none (Nat.le_of_not_lt hlt), eq_comm, List.countP_eq_zero]
    intro d hd hrate
    exact hlt (h.groupOf_lt_iff.2 (List.mem_map.2 ⟨d, hd, of_decide_eq_true hrate⟩))

theorem Records.rates_enlargeGroup (h : s.Records ds) (rate : Rate) :
    (enlargeGroup s.groups (s.groupOf rate) rate).toList.map ControlGroup.rate =
      ((ds.map Declared.rate) ++ [rate]).eraseDups := by
  rw [eraseDups_concat, ← firstRates, ← h.rates]
  unfold enlargeGroup
  by_cases hlt : s.groupOf rate < s.groups.size
  · have hrate := rate_groupOf (Array.getElem?_eq_getElem hlt)
    -- the rate that is written is the one that stands there
    have hlen : s.groupOf rate < (s.groups.toList.map ControlGroup.rate).length := by simpa using hlt
    have hsame := List.set_getElem_self hlen
    rw [List.getElem_map, Array.getElem_toList, hrate] at hsame
    rw [dif_pos hlt, if_pos (h.groupOf_lt_iff.1 hlt), Array.toList_set, List.map_set]
    exact hsame
  · rw [dif_neg hlt, if_neg (fun hmem => hlt (h.groupOf_lt_iff.2 hmem)), Array.toList_push, List.map_append]
    rfl

theorem Records.control (h : s.Records ds) {name : String} {rate : Rate} {default : Sample} {e : Element}
    (hok : s.control name rate default = .ok (e, s')) : s'.Records (ds ++ [⟨name, rate, default⟩]) := by
  obtain ⟨-, hfresh, -, rfl⟩ := eq_of_control hok
  refine ⟨?_, ?_, ?_, fun k g hg => ?_⟩
  · rw [Array.toList_push, List.map_append, h.controls]
    rfl
  · rw [List.map_append]
    refine h.names.append (List.nodup_singleton name) (List.disjoint_singleton.2 fun hmem => ?_)
    rw [← h.controls, List.map_map, List.mem_map] at hmem
    obtain ⟨c, hc, hname⟩ := hmem
    exact hfresh c hc hname
  · rw [firstRates, List.map_append]
    exact h.rates_enlargeGroup rate
  · change (enlargeGroup s.groups (s.groupOf rate) rate)[k]? = some g at hg
    rw [getElem?_enlargeGroup (s := s) (k := s.groupOf rate) Array.findIdx_le_size] at hg
    rw [List.countP_append]
    split at hg
    · next hk =>
      cases hg
      have hcount := h.groupCount_groupOf rate
      simp [hcount]
    · next hk =>
      have hne : rate ≠ g.rate := fun heq => hk (heq ▸ (h.groupOf_eq hg).symm)
      rw [h.counts k g hg]
      simp [hne]

theorem Records.perform (h : s.Records ds) (call : Call) :
    (s.perform call).2.Records (ds ++ (s.declares? call).toList) := by
  have hpending : (∀ name rate default, call ≠ .control name rate default) →
      (s.perform call).2.Records (ds ++ []) := by
    intro hcall
    obtain ⟨pending, heq⟩ := pending_of_perform (s := s) hcall
    rw [heq, List.append_nil]
    exact h.of_pending pending
  cases call with
  | control name rate default =>
    rw [declares?, Sketch.perform]
    cases hok : s.control name rate default with
    | ok p => exact h.control hok
    | error e =>
      rw [Option.toList_none, List.append_nil]
      exact h
  | _ => exact hpending fun _ _ _ heq => by cases heq

theorem Records.run (h : s.Records ds) (calls : List Call) : (s.run calls).Records (ds ++ s.declared calls) := by
  induction calls generalizing s ds with
  | nil => rwa [declared, List.append_nil]
  | cons call calls ih =>
    rw [declared, ← List.append_assoc]
    exact ih (h.perform call)

/-- The groups follow from the controls. -/
theorem Records.groups_eq (h : s.Records ds) :
    s.groups.toList = (firstRates ds).map fun rate => ⟨rate, ds.countP (·.rate = rate)⟩ := by
  rw [← h.rates, List.map_map]
  refine (List.map_id _).symm.trans (List.map_congr_left fun g hg => ?_)
  obtain ⟨k, hk⟩ := List.getElem?_of_mem hg
  rw [Array.getElem?_toList] at hk
  exact congrArg (ControlGroup.mk g.rate) (h.counts k g hk)

/-- No call takes a control away. -/
theorem controls_prefix_run (s : Sketch) (calls : List Call) :
    s.controls.toList <+: (s.run calls).controls.toList := by
  refine run_keeps (P := fun s' => s.controls.toList <+: s'.controls.toList) (fun s' hs call => ?_)
    (List.prefix_refl _) calls
  refine hs.trans (perform_keeps (P := fun s'' => s'.controls.toList <+: s''.controls.toList)
    (List.prefix_refl _) call (fun _ _ _ _ _ hok => ?_) (fun _ _ => ?_)
    (fun _ _ _ hok => ?_) fun _ _ _ _ _ _ hok => ?_)
  · obtain ⟨pending, rfl⟩ := pending_of_addWith hok
    exact List.prefix_refl _
  · exact List.prefix_refl _
  · obtain ⟨pending, rfl⟩ := pending_of_define hok
    exact List.prefix_refl _
  · obtain ⟨-, -, -, rfl⟩ := eq_of_control hok
    exact prefix_push _ _

/-- The control that an answer is the handle of. -/
theorem mem_controls_of_perform {name : String} {rate : Rate} {default : Sample} {r : OutputRef}
    (h : (s.perform (.control name rate default)).1 = .ok (some (.out r))) :
    ⟨name, rate, default, r.node, r.output⟩ ∈ (s.perform (.control name rate default)).2.controls.toList := by
  rw [Sketch.perform] at h ⊢
  cases hok : s.control name rate default with
  | error e =>
    rw [hok] at h
    cases h
  | ok p =>
    obtain ⟨-, -, hhandle, hrest⟩ := eq_of_control hok
    rw [hok] at h
    simp only [answer, Except.ok.injEq, Option.some.injEq] at h
    obtain rfl := Element.out.inj (h.symm.trans hhandle)
    simp [answer, hrest]

theorem mem_controls_run {calls before after : List Call} {name : String} {rate : Rate} {default : Sample}
    {r : OutputRef} (hcalls : calls = before ++ .control name rate default :: after)
    (h : ((s.run before).perform (.control name rate default)).1 = .ok (some (.out r))) :
    ⟨name, rate, default, r.node, r.output⟩ ∈ (s.run calls).controls.toList := by
  have hmem := mem_controls_of_perform h
  rw [hcalls, Sketch.run, List.foldl_append, List.foldl_cons]
  exact (controls_prefix_run _ after).subset hmem

end Sketch

end SoundGraph
