import SoundGraph.Proofs.Compile.Discovery
import SoundGraph.Proofs.Compile.Validity
import SoundGraph.Proofs.Schedule.FirstReads
import SoundGraph.Proofs.Sketch.Handles

/-! The constants of a compiled graph are in a normal form: the bit patterns that the nodes read, each
once, in the order in which they are first read. The pool is read off the surviving nodes of the expanded
table alone, so a constant whose only readers were merged away, or that was interned for an instance
that was never emitted, has no part in it. -/

namespace SoundGraph

/-- The constants that the nodes read, node by node and input by input. -/
def Graph.constantReads (g : Graph) : List Nat := g.nodes.toList.flatMap fun n => n.inputs.flatMap Input.constants

def Expansion.valuesRead (x : Expansion) (i : Nat) : List Sample :=
  match x.nodes[i]? with
  | some n => n.constants.filterMap (x.constants.values[·]?)
  | none => []

variable {place : Nat → Nat} {constants : Array Sample} {u : FirstUse}

/-- A renumbered node reads the slots of the constants that it read before. -/
theorem SlottedNode.forall₂_constants {n n' : EmittedNode} (h : SlottedNode place u n n') :
    List.Forall₂ (fun c k : Nat => u.slots[c]? = some (some k)) n.constants n'.constants := by
  obtain ⟨inputs, rfl, hin⟩ := h
  refine List.rel_flatMap hin fun input input' hi => ?_
  cases hi with
  | constant hslot => exact .cons hslot .nil
  | node => exact .nil

theorem EmittedNode.constants_redirect (n : EmittedNode) (f : Nat → Nat) :
    (n.redirect f).constants = n.constants := by
  rw [EmittedNode.constants, EmittedNode.constants, redirect, List.flatMap_map]
  refine congrArg List.flatten (List.map_congr_left fun input _ => ?_)
  cases input <;> rfl

namespace FirstUse

/-- Slots hold the values of the constants that they stand for. -/
theorem Holds.filterMap_slots (h : u.Holds constants) {cs ks : List Nat}
    (hslots : List.Forall₂ (fun c k : Nat => u.slots[c]? = some (some k)) cs ks) :
    ks.filterMap (u.pool[·]?) = cs.filterMap (constants[·]?) := by
  induction hslots with
  | nil => rfl
  | cons hslot _ ih =>
    obtain ⟨v, hold, hnew⟩ := h.value _ _ hslot
    rw [List.filterMap_cons_some hold, List.filterMap_cons_some hnew, ih]

/-- The new pool has no value twice if the old one has none. -/
theorem Holds.nodup_pool (h : u.Holds constants)
    (hdistinct : ∀ (c d : Nat) v, constants[c]? = some v → constants[d]? = some v → c = d)
    (hgiven : ∀ k < u.pool.size, ∃ c : Nat, u.slots[c]? = some (some k)) : u.pool.toList.Nodup := by
  rw [List.nodup_iff_getElem?_ne_getElem?]
  intro k l hkl hl heq
  rw [Array.length_toList] at hl
  rw [Array.getElem?_toList, Array.getElem?_toList] at heq
  obtain ⟨c, hc⟩ := hgiven k (hkl.trans hl)
  obtain ⟨d, hd⟩ := hgiven l hl
  obtain ⟨v, hcv, hkv⟩ := h.value c k hc
  obtain ⟨w, hdw, hlw⟩ := h.value d l hd
  rw [hkv, hlw] at heq
  obtain rfl := Option.some.inj heq
  obtain rfl := hdistinct c d v hcv hdw
  rw [hc] at hd
  cases hd
  exact Nat.lt_irrefl k hkl

end FirstUse

/-- Distinct entries, read so that each is first read after those in front of it. -/
theorem Numbered.eraseDups_filterMap {α : Type} [DecidableEq α] {as : Array α} {l : List Nat} {n : Nat}
    (h : Numbered l n) (hn : n ≤ as.size) (hnodup : as.toList.Nodup) :
    (l.filterMap (as[·]?)).eraseDups = as.toList.take n := by
  induction h with
  | nil => simp
  | @again l k n h hk ih =>
    have hget : as[k]? = some as[k] := Array.getElem?_eq_getElem (by omega)
    have hold : as[k] ∈ l.filterMap (as[·]?) := List.mem_filterMap.2 ⟨k, h.mem_iff.2 hk, hget⟩
    rw [List.filterMap_append, List.filterMap_cons_some hget, List.filterMap_nil, eraseDups_concat,
      if_pos hold, ih hn]
  | @next l n h ih =>
    have hget : as[n]? = some as[n] := Array.getElem?_eq_getElem hn
    have hnew : as[n] ∉ l.filterMap (as[·]?) := by
      rw [List.mem_filterMap]
      rintro ⟨k, hk, heq⟩
      have hlt := h.mem_iff.1 hk
      have := List.nodup_iff_getElem?_ne_getElem?.1 hnodup k n hlt (by simpa using hn)
      simp only [Array.getElem?_toList, heq, hget, ne_eq, not_true_eq_false] at this
    rw [List.filterMap_append, List.filterMap_cons_some hget, List.filterMap_nil, eraseDups_concat,
      if_neg hnew, ih (by omega), List.take_add_one, Array.getElem?_toList, hget]
    rfl

/-- The pool of an ordered table holds just what the survivors read. -/
theorem constants_of_order {x : Expansion} {m : Merge} {out : List EmittedNode} {pool : Array Sample}
    (hback : Backward x.constants.values x.nodes) (hm : Merge.ofNodes x.nodes.toList = .ok m)
    (hcov : m.Covers x.nodes.toList) (h : order x.nodes x.constants.values = .ok (out, pool)) :
    Numbered (out.flatMap EmittedNode.constants) pool.size ∧ pool.toList.Nodup ∧
      (out.flatMap EmittedNode.constants).filterMap (pool[·]?) = (survivors m.kept).flatMap x.valuesRead := by
  obtain ⟨out', u, hok, hu, hslotted⟩ := order_slotted hback hm hcov
  rw [h] at hok
  cases hok
  have hnumbered : Numbered (out.flatMap EmittedNode.constants) u.pool.size := by
    rw [order_eq hback, bind_eq_ok_iff] at h
    obtain ⟨_, -, hren⟩ := h
    exact numbered_renumber (mapError_eq_ok_iff.1 hren)
  refine ⟨hnumbered, hu.nodup_pool (fun _ _ _ => x.constants.nodup_values) fun k hk => ?_, ?_⟩
  · obtain ⟨n', hn', hread⟩ := List.mem_flatMap.1 (hnumbered.mem_iff.2 hk)
    obtain ⟨i, -, n, -, hs⟩ := exists_left_of_forall₂ hslotted hn'
    obtain ⟨c, -, hc⟩ := exists_left_of_forall₂ hs.forall₂_constants hread
    exact ⟨c, hc⟩
  · rw [List.filterMap_flatMap]
    have hvalues : List.Forall₂ (fun i n' => x.valuesRead i = n'.constants.filterMap (u.pool[·]?))
        (survivors m.kept) out := by
      refine hslotted.imp fun i n' ⟨n, hn, hs⟩ => ?_
      obtain ⟨n, hget, rfl⟩ := hcov.source hn
      rw [Array.getElem?_toList] at hget
      rw [hu.filterMap_slots hs.forall₂_constants, EmittedNode.constants_redirect, Expansion.valuesRead, hget]
    have hflat := List.rel_flatMap hvalues fun i n' heq => List.forall₂_eq_eq_eq ▸ heq
    exact (List.forall₂_eq_eq_eq ▸ hflat : _ = _).symm

namespace Sketch

open Expanding

variable {s : Sketch} {limit : Nat}

/-- The pool of a compiled graph has each bit pattern once, all of it is read, and its entries are first
read in their order. What it holds are the values that the surviving nodes of the expanded table read, so
a value that is in the table for no survivor leaves no trace. -/
theorem constants_canonical {g : Graph} (h : s.compile limit = .ok g) :
    g.constants.toList.Nodup ∧
    (∀ k < g.constants.size, k ∈ g.constantReads) ∧
    (∀ k l, k < l → l < g.constants.size → g.constantReads.idxOf k < g.constantReads.idxOf l) ∧
    ∃ progress x, ∃ kept : List Nat, s.expand limit .empty = .ok progress x ∧
      kept.Pairwise (· < ·) ∧ (∀ i, i ∈ kept ↔ Survives x.nodes i) ∧
      g.constants.toList = (kept.flatMap x.valuesRead).eraseDups ∧
      ∀ v ∈ x.constants.values, (∀ i, Survives x.nodes i → v ∉ x.valuesRead i) → v ∉ g.constants := by
  obtain ⟨progress, x, out, pool, controls, hx, horder, -, rfl⟩ := stages_of_compile h
  have hback := (sound_expand hx).backward
  obtain ⟨m, hm, hcov⟩ := Merge.covers_ofNodes fun _ _ hn => hback.reads_lt hn
  obtain ⟨hnumbered, hnodup, hvalues⟩ := constants_of_order hback hm hcov horder
  have hgraph : Graph.constantReads ⟨pool, controls, (out.map EmittedNode.toNode).toArray⟩ =
      out.flatMap EmittedNode.constants := by
    rw [Graph.constantReads, List.flatMap_map]
    rfl
  rw [hgraph]
  have hmem : ∀ i, i ∈ survivors m.kept ↔ Survives x.nodes i := fun i =>
    mem_survivors.trans (hcov.isKept_iff hback.readsBack)
  have hpool : pool.toList = ((survivors m.kept).flatMap x.valuesRead).eraseDups := by
    rw [← hvalues, hnumbered.eraseDups_filterMap (Nat.le_refl _) hnodup, ← Array.length_toList, List.take_length]
  refine ⟨hnodup, fun k hk => hnumbered.mem_iff.2 hk, fun k l hkl hl => hnumbered.idxOf_lt hkl hl,
    progress, x, survivors m.kept, hx, pairwise_survivors _, hmem, hpool, fun v _ hunread hv => ?_⟩
  rw [← Array.mem_toList_iff, hpool, List.mem_eraseDups, List.mem_flatMap] at hv
  obtain ⟨i, hi, hread⟩ := hv
  exact hunread i ((hmem i).1 hi) hread

def pair : Descriptor :=
  { name := "Pair", rate := .fixed .control, inputs := [⟨"a", .any, false⟩, ⟨"b", .any, false⟩] }

def retry : Hook := fun rule args =>
  .instantiate pair rule [.const ⟨9⟩, .out ⟨7, 0⟩] fun _ => .instantiate pair rule args .done

def zeroCalls : List Call := [.add ⟨pair, some retry⟩ [.const ⟨0⟩, .const ⟨0x80000000⟩]]

def zeroTable : Expansion :=
  let tried := (ConstantPool.empty.intern ⟨9⟩).2
  let plus := tried.intern ⟨0⟩
  let minus := plus.2.intern ⟨0x80000000⟩
  ⟨#[⟨"Pair", .control, [.constant plus.1, .constant minus.1], #[.control], {}⟩], minus.2⟩

theorem perform_retry :
    Expanding.perform 8 (retry (.fixed .control) [.const ⟨0⟩, .const ⟨0x80000000⟩]) .empty =
      .ok (.out ⟨0, 0⟩) zeroTable := by
  have hfails : instantiate 8 pair (.fixed .control) [.const ⟨9⟩, .out ⟨7, 0⟩] .empty =
      .error (.rejected (.invalidReference ⟨7, 0⟩)) ⟨#[], (ConstantPool.empty.intern ⟨9⟩).2⟩ := by
    rw [instantiate, if_pos (by decide), fanOut]
    rfl
  have hemits : instantiate 8 pair (.fixed .control) [.const ⟨0⟩, .const ⟨0x80000000⟩]
      ⟨#[], (ConstantPool.empty.intern ⟨9⟩).2⟩ = .ok (.out ⟨0, 0⟩) zeroTable := by
    rw [instantiate, if_pos (by decide), fanOut]
    rfl
  simp only [retry, Expanding.perform, hfails, hemits]
  rfl

theorem expand_zeros :
    (({} : Sketch).run zeroCalls).expand 8 .empty = .ok #[.done (.out ⟨0, 0⟩)] zeroTable := by
  have hrun : ({} : Sketch).run zeroCalls =
      { pending := #[⟨⟨pair, some retry⟩, .fixed .control, some [.const ⟨0⟩, .const ⟨0x80000000⟩]⟩] } := rfl
  rw [hrun]
  simp only [expand, emitControls, walkAll, Sketch.size, List.size_toArray, List.length_singleton, List.range_one,
    List.foldlM_cons, List.foldlM_nil, List.forM]
  rw [walk]
  simp [argsOf, scheduleAll, Element.pendingsOf, Element.pendings, walk, expandNode, resolveAll, resolve,
    Generator.script, Expanding.check, bind, EStateM.bind, pure, EStateM.pure, Except.bind, Except.pure,
    perform_retry]

/-- The number of the failed try is in the table, but not in the graph. -/
theorem constants_canonical_zeros :
    ∃ g, (({} : Sketch).run zeroCalls).compile 8 = .ok g ∧ ⟨9⟩ ∈ zeroTable.constants.values ∧
      g.constants.toList = [⟨0⟩, ⟨0x80000000⟩] := by
  let tried := (ConstantPool.empty.intern ⟨9⟩).2
  let plus := tried.intern ⟨0⟩
  let minus := plus.2.intern ⟨0x80000000⟩
  have hnine : minus.2.values[(ConstantPool.empty.intern ⟨9⟩).1]? = some ⟨9⟩ :=
    getElem?_mono (ConstantPool.prefix_intern _ _) (getElem?_mono (ConstantPool.prefix_intern _ _)
      (ConstantPool.getElem?_intern _ _))
  have hplus : minus.2.values[plus.1]? = some ⟨0⟩ :=
    getElem?_mono (ConstantPool.prefix_intern _ _) (ConstantPool.getElem?_intern _ _)
  have hminus : minus.2.values[minus.1]? = some ⟨0x80000000⟩ := ConstantPool.getElem?_intern _ _
  have hread : zeroTable.valuesRead 0 = [⟨0⟩, ⟨0x80000000⟩] := by
    change [plus.1, minus.1].filterMap (minus.2.values[·]?) = _
    rw [List.filterMap_cons_some hplus, List.filterMap_cons_some hminus, List.filterMap_nil]
  obtain ⟨g, hg, -⟩ := (grouped_empty.run zeroCalls).compile_of_expand expand_zeros
  obtain ⟨-, -, -, progress, x, kept, hx, hsorted, hmem, hpool, -⟩ := constants_canonical hg
  cases expand_zeros.symm.trans hx
  have hkept : kept = [0] := by
    have hzero : ∀ i, i ∈ kept ↔ i = 0 := fun i => (hmem i).trans
      ⟨fun h => Nat.lt_one_iff.1 h.lt, fun h => h ▸ ⟨Nat.one_pos, fun j hj => absurd hj (Nat.not_lt_zero j)⟩⟩
    rcases kept with _ | ⟨a, _ | ⟨b, rest⟩⟩
    · simpa using hzero 0
    · simpa using hzero a
    · have ha := (hzero a).1 (by simp)
      have hb := (hzero b).1 (by simp)
      have hab := (List.pairwise_cons.1 hsorted).1 b List.mem_cons_self
      omega
  refine ⟨g, hg, Array.mem_of_getElem? hnine, ?_⟩
  rw [hpool, hkept, List.flatMap_singleton, hread]
  decide

end Sketch

end SoundGraph
