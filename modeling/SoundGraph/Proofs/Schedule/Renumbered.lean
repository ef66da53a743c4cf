import SoundGraph.Proofs.Schedule.Sorted
import SoundGraph.Schedule.Renumber

/-! What renumbering keeps. A sorted node stands at its position in the sorted list, and a constant keeps
its value and shares its slot with no other: whatever has been met keeps its slot from then on. -/

namespace SoundGraph

/-- What an input has become: the same value in the new pool, or the same output of the node in its new
place. -/
inductive SameInput (place : Nat → Nat) (old new : Array Sample) : Input → Input → Prop where
  | constant {c k : Nat} {v : Sample} (hold : old[c]? = some v) (hnew : new[k]? = some v) :
    SameInput place old new (.constant c) (.constant k)
  | node (i output : Nat) : SameInput place old new (.node ⟨i, output⟩) (.node ⟨place i, output⟩)

structure SameNode (place : Nat → Nat) (old new : Array Sample) (n n' : EmittedNode) : Prop where
  name : n'.name = n.name
  rate : n'.rate = n.rate
  outputs : n'.outputs = n.outputs
  flags : n'.flags = n.flags
  inputs : List.Forall₂ (SameInput place old new) n.inputs n'.inputs

variable {place : Nat → Nat} {old new : Array Sample}

/-- Nodes that were redirected before they were placed. -/
theorem SameNode.of_redirect {stand : Nat → Nat} {n n' : EmittedNode}
    (h : SameNode place old new (n.redirect stand) n') :
    SameNode (fun i => place (stand i)) old new n n' := by
  refine ⟨h.name, h.rate, h.outputs, h.flags, ?_⟩
  refine (List.forall₂_map_left_iff.1 h.inputs).imp fun input input' hi => ?_
  cases input with
  | constant index =>
    cases hi with
    | constant hold hnew => exact .constant hold hnew
  | node source =>
    cases hi with
    | node => exact .node source.node source.output

theorem positions_foldl {l : List Nat} {p : Array Nat} {start : Nat} (hnd : l.Nodup)
    (hlt : ∀ i ∈ l, i < p.size) (i : Nat) :
    ((l.zipIdx start).foldl (fun p (i, k) => p.setIfInBounds i k) p)[i]? =
      if i ∈ l then some (start + l.idxOf i) else p[i]? := by
  induction l generalizing p start with
  | nil => simp
  | cons a l ih =>
    obtain ⟨ha, hnd⟩ := List.nodup_cons.1 hnd
    have hsize := hlt a List.mem_cons_self
    rw [List.zipIdx_cons, List.foldl_cons, ih hnd fun j hj => by
      rw [Array.size_setIfInBounds]
      exact hlt j (List.mem_cons_of_mem a hj)]
    rcases eq_or_ne i a with rfl | hne
    · simp [ha, hsize]
    · simp only [List.mem_cons, hne, false_or, List.idxOf_cons_ne l (Ne.symm hne),
        Array.getElem?_setIfInBounds_ne (Ne.symm hne)]
      split
      · rw [Nat.add_assoc, Nat.add_comm 1]
      · rfl

/-- A sorted node is positioned where the sorted list has it. -/
theorem getElem?_positions {kept : Array (Option EmittedNode)} {i : Nat} (hi : i ∈ survivors kept) :
    (positions kept.size (survivors kept).toArray)[i]? = some ((survivors kept).idxOf i) := by
  have hlt : ∀ i ∈ survivors kept, i < (Array.replicate kept.size 0).size := fun i hi => by
    simpa using lt_of_mem_survivors hi
  rw [positions, positions_foldl (nodup_survivors kept) hlt, if_pos hi, Nat.zero_add]

def FirstUse.Keeps (u u' : FirstUse) : Prop :=
  ∀ c k : Nat, u.slots[c]? = some (some k) → u'.slots[c]? = some (some k)

inductive Slotted (place : Nat → Nat) (u : FirstUse) : Input → Input → Prop where
  | constant {c k : Nat} (h : u.slots[c]? = some (some k)) : Slotted place u (.constant c) (.constant k)
  | node (i output : Nat) : Slotted place u (.node ⟨i, output⟩) (.node ⟨place i, output⟩)

def SlottedNode (place : Nat → Nat) (u : FirstUse) (n n' : EmittedNode) : Prop :=
  ∃ inputs, n' = { n with inputs } ∧ List.Forall₂ (Slotted place u) n.inputs inputs

theorem slotted_constant_iff {u : FirstUse} {c : Nat} {input : Input} :
    Slotted place u (.constant c) input ↔ ∃ k, u.slots[c]? = some (some k) ∧ input = .constant k := by
  refine ⟨fun h => ?_, fun ⟨k, hk, heq⟩ => heq ▸ .constant hk⟩
  cases h with
  | constant hk => exact ⟨_, hk, rfl⟩

theorem slotted_node_iff {u : FirstUse} {source : OutputRef} {input : Input} :
    Slotted place u (.node source) input ↔ input = .node ⟨place source.node, source.output⟩ := by
  refine ⟨fun h => ?_, fun heq => heq ▸ .node source.node source.output⟩
  cases h with
  | node => rfl

theorem Slotted.keeps {u u' : FirstUse} {input input' : Input} (h : Slotted place u input input')
    (hk : u.Keeps u') : Slotted place u' input input' := by
  cases h with
  | constant hslot => exact .constant (hk _ _ hslot)
  | node i output => exact .node i output

theorem SlottedNode.keeps {u u' : FirstUse} {n n' : EmittedNode} (h : SlottedNode place u n n')
    (hk : u.Keeps u') : SlottedNode place u' n n' := by
  obtain ⟨inputs, rfl, hin⟩ := h
  exact ⟨inputs, rfl, hin.imp fun _ _ hi => hi.keeps hk⟩

namespace FirstUse

structure Holds (constants : Array Sample) (u : FirstUse) : Prop where
  size : u.slots.size = constants.size
  value : ∀ c k : Nat, u.slots[c]? = some (some k) →
    ∃ v, constants[c]? = some v ∧ u.pool[k]? = some v
  distinct : ∀ c d k : Nat, u.slots[c]? = some (some k) → u.slots[d]? = some (some k) → c = d

variable {constants : Array Sample} {u : FirstUse}

theorem holds_empty (constants : Array Sample) : (empty constants.size).Holds constants := by
  have hnone : ∀ c k : Nat, (empty constants.size).slots[c]? ≠ some (some k) := by
    intro c k h
    rw [empty, Array.getElem?_replicate] at h
    split at h <;> cases h
  exact ⟨by simp [empty], fun c k h => absurd h (hnone c k), fun c d k h => absurd h (hnone c k)⟩

theorem Holds.sameNode (h : u.Holds constants) {n n' : EmittedNode} (hn : SlottedNode place u n n') :
    SameNode place constants u.pool n n' := by
  obtain ⟨inputs, rfl, hin⟩ := hn
  refine ⟨rfl, rfl, rfl, rfl, hin.imp fun input input' hi => ?_⟩
  cases hi with
  | constant hslot =>
    obtain ⟨v, hold, hnew⟩ := h.value _ _ hslot
    exact .constant hold hnew
  | node i output => exact .node i output

/-- `act` succeeds, keeps the slots right and gives an answer with `Q`. -/
def Yields {α : Type} (constants : Array Sample) (act : StateT FirstUse (Except Fault) α)
    (Q : α → FirstUse → Prop) : Prop :=
  ∀ u : FirstUse, u.Holds constants →
    ∃ a u', act u = .ok (a, u') ∧ u'.Holds constants ∧ u.Keeps u' ∧ Q a u'

variable {α β : Type} {Q : α → FirstUse → Prop} {R : β → FirstUse → Prop}

theorem yields_pure {a : α} (h : ∀ u, Q a u) : Yields constants (pure a) Q :=
  fun u hu => ⟨a, u, rfl, hu, fun _ _ hk => hk, h u⟩

/-- The answer of the first action stays good while the second one gives out slots. -/
theorem Yields.bind {act : StateT FirstUse (Except Fault) α}
    {f : α → StateT FirstUse (Except Fault) β} (h : Yields constants act Q)
    (hf : ∀ a, Yields constants (f a) fun b u' => ∀ u, Q a u → u.Keeps u' → R b u') :
    Yields constants (act >>= f) R := by
  intro u hu
  obtain ⟨a, u₁, hact, hu₁, hk₁, hq⟩ := h u hu
  obtain ⟨b, u₂, hfa, hu₂, hk₂, hr⟩ := hf a u₁ hu₁
  refine ⟨b, u₂, ?_, hu₂, fun c k hc => hk₂ c k (hk₁ c k hc), hr u₁ hq hk₂⟩
  change (act u >>= fun p => f p.1 p.2) = _
  rw [hact]
  exact hfa

theorem yields_mapM {P : α → β → FirstUse → Prop} {f : α → StateT FirstUse (Except Fault) β}
    (hstable : ∀ a b u u', P a b u → u.Keeps u' → P a b u') {as : List α}
    (hstep : ∀ a ∈ as, Yields constants (f a) (P a)) :
    Yields constants (as.mapM f) fun bs u => List.Forall₂ (fun a b => P a b u) as bs := by
  induction as with
  | nil => exact yields_pure fun _ => .nil
  | cons a as ih =>
    obtain ⟨ha, has⟩ := List.forall_mem_cons.1 hstep
    rw [List.mapM_cons]
    refine ha.bind fun b => (ih has).bind fun bs => yields_pure ?_
    intro u u₁ hbs hk₁ u₀ hb hk₀
    exact .cons (hstable a b _ _ hb hk₀) (hbs.imp fun _ _ h => hstable _ _ _ _ h hk₁)

/-- The slot of a constant of the old pool; one without a slot gets the next, which no other has. -/
theorem yields_slot {c : Nat} (hc : c < constants.size) :
    Yields constants (slot constants c) fun k u => u.slots[c]? = some (some k) := by
  intro u hu
  have hlt : c < u.slots.size := by rwa [hu.size]
  have hval : constants[c]? = some constants[c] := Array.getElem?_eq_getElem hc
  cases hs : u.slots[c] with
  | some k =>
    refine ⟨k, u, ?_, hu, fun _ _ hk => hk, ?_⟩
    · rw [slot, dif_pos hlt, hs]
    · exact (Array.getElem?_eq_getElem hlt).trans (congrArg some hs)
  | none =>
    have hget : ∀ d k : Nat, (u.slots.set c (some u.pool.size))[d]? = some (some k) ↔
        c = d ∧ k = u.pool.size ∨ c ≠ d ∧ u.slots[d]? = some (some k) := by
      intro d k
      rw [Array.getElem?_set hlt]
      by_cases heq : c = d <;> simp [heq, eq_comm]
    have hold : ∀ d k : Nat, u.slots[d]? = some (some k) → k < u.pool.size := fun d k hd => by
      obtain ⟨v, -, hv⟩ := hu.value d k hd
      exact (Array.getElem?_eq_some_iff.1 hv).1
    refine ⟨u.pool.size, ⟨u.slots.set c (some u.pool.size), u.pool.push constants[c]⟩, ?_,
      ⟨by rw [Array.size_set, hu.size], fun d k hd => ?_, fun d e k hd he => ?_⟩, fun d k hd => ?_,
      (hget c _).2 (.inl ⟨rfl, rfl⟩)⟩
    · rw [slot, dif_pos hlt, hs, hval]
    · rcases (hget d k).1 hd with ⟨rfl, rfl⟩ | ⟨-, hd⟩
      · exact ⟨constants[c], hval, Array.getElem?_push_size⟩
      · obtain ⟨v, hv, hk⟩ := hu.value d k hd
        exact ⟨v, hv, getElem?_mono (prefix_push _ _) hk⟩
    · rcases (hget d k).1 hd with ⟨rfl, rfl⟩ | ⟨-, hd⟩ <;> rcases (hget e _).1 he with ⟨rfl, hk⟩ | ⟨-, he⟩
      · rfl
      · exact absurd (hold e _ he) (Nat.lt_irrefl _)
      · exact absurd (hk ▸ hold d k hd) (Nat.lt_irrefl _)
      · exact hu.distinct d e k hd he
    · refine (hget d k).2 (.inr ⟨?_, hd⟩)
      rintro rfl
      rw [Array.getElem?_eq_getElem hlt, hs] at hd
      cases hd

variable {position : Array Nat}

theorem yields_renumberInput {input : Input} (hconst : ∀ c, input = .constant c → c < constants.size)
    (hnode : ∀ source, input = .node source → position[source.node]? = some (place source.node)) :
    Yields constants (renumberInput position constants input) fun input' u =>
      Slotted place u input input' := by
  cases input with
  | constant c =>
    exact (yields_slot (hconst c rfl)).bind fun k => yields_pure fun u u₀ hk hkeep =>
      .constant (hkeep c k hk)
  | node source =>
    rw [renumberInput, hnode source rfl]
    exact yields_pure fun u => .node source.node source.output

theorem yields_renumberNode {node : EmittedNode}
    (hconst : ∀ c, .constant c ∈ node.inputs → c < constants.size)
    (hnode : ∀ i, node.Reads i → position[i]? = some (place i)) :
    Yields constants (renumberNode position constants node) fun node' u =>
      SlottedNode place u node node' := by
  have hinputs : Yields constants (node.inputs.mapM (renumberInput position constants)) fun inputs u =>
      List.Forall₂ (Slotted place u) node.inputs inputs := by
    refine yields_mapM (P := fun a b u => Slotted place u a b) (fun _ _ _ _ h hk => h.keeps hk)
      fun input hin => ?_
    refine yields_renumberInput ?_ ?_
    · rintro c rfl
      exact hconst c hin
    · rintro source rfl
      exact hnode source.node ⟨source.output, hin⟩
  refine hinputs.bind fun inputs => yields_pure fun u u₀ hin hk => ?_
  exact ⟨inputs, rfl, hin.imp fun _ _ h => h.keeps hk⟩

end FirstUse

/-- Every kept node comes out once, in the order of discovery, its inputs the same. -/
theorem renumber_survivors {kept : Array (Option EmittedNode)} {constants : Array Sample}
    (hread : ReadsKept kept)
    (hconst : ∀ (i : Nat) node, kept[i]? = some (some node) →
      ∀ c, .constant c ∈ node.inputs → c < constants.size) :
    ∃ out u, renumber kept constants (survivors kept).toArray = .ok (out, u.pool) ∧
      u.Holds constants ∧
      List.Forall₂ (fun i n' => ∃ n, kept[i]? = some (some n) ∧
        SlottedNode (survivors kept).idxOf u n n') (survivors kept) out := by
  obtain ⟨nodes, hnodes⟩ : ∃ nodes, (survivors kept).mapM (survivor kept) = .ok nodes := by
    refine exists_mapM_eq_ok fun i hi => ?_
    obtain ⟨node, hn⟩ := mem_survivors.1 hi
    exact ⟨node, by rw [survivor, hn]⟩
  have hkept : List.Forall₂ (fun i n => kept[i]? = some (some n)) (survivors kept) nodes := by
    refine (mapM_eq_ok_iff.1 hnodes).imp fun i n h => ?_
    rw [survivor] at h
    split at h
    · next node hn => rw [hn, Except.ok.inj h]
    · cases h
  have hyields : FirstUse.Yields constants
      (nodes.mapM (renumberNode (positions kept.size (survivors kept).toArray) constants))
      fun out u => List.Forall₂ (SlottedNode (survivors kept).idxOf u) nodes out := by
    refine FirstUse.yields_mapM (P := fun n n' u => SlottedNode _ u n n') (fun _ _ _ _ h hk => h.keeps hk)
      fun n hn => ?_
    obtain ⟨i, -, hi⟩ := exists_left_of_forall₂ hkept hn
    refine FirstUse.yields_renumberNode (hconst i n hi) fun j hj => ?_
    exact getElem?_positions (mem_survivors.2 (hread i n hi j hj).2)
  obtain ⟨out, u, hrun, hu, -, hslotted⟩ := hyields _ (FirstUse.holds_empty constants)
  refine ⟨out, u, ?_, hu, forall₂_comp hkept hslotted⟩
  simp only [renumber, hnodes, bind, Except.bind, StateT.run, hrun]
  rfl

end SoundGraph
