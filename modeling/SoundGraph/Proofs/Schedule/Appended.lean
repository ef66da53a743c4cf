import SoundGraph.Proofs.Schedule.Renumbered

/-! Longer tables. Merging, sorting and renumbering each go through the table from the front, and what they do
with a node depends on the nodes in front of it only. So when a table is continued, its nodes and constants
come out as they did, and what is added comes out behind them. -/

namespace SoundGraph

/-- The kept nodes of a continued table: the old ones, and those behind them. -/
theorem survivors_append {kept kept' : Array (Option EmittedNode)} (h : kept.toList <+: kept'.toList) :
    survivors kept' = survivors kept ++
      (List.range' kept.size (kept'.size - kept.size)).filter fun i => (kept'.getD i none).isSome := by
  have hle : kept.size ≤ kept'.size := by simpa using h.length_le
  have hsame : ∀ i ∈ List.range kept.size, (kept'.getD i none).isSome = (kept.getD i none).isSome := by
    intro i hi
    have hget := Array.getElem?_eq_getElem (List.mem_range.1 hi)
    rw [Array.getD_eq_getD_getElem?, Array.getD_eq_getD_getElem?, getElem?_mono h hget, hget]
  have hrange : List.range kept'.size = List.range kept.size ++ List.range' kept.size (kept'.size - kept.size) := by
    rw [List.range_eq_range', List.range_eq_range', ← Nat.add_sub_cancel' hle, Nat.add_sub_cancel_left,
      ← List.range'_append, Nat.zero_add, Nat.one_mul]
  rw [survivors, survivors, hrange, List.filter_append, List.filter_congr hsame]

theorem survivors_mono {kept kept' : Array (Option EmittedNode)} (h : kept.toList <+: kept'.toList) :
    survivors kept <+: survivors kept' := by
  rw [survivors_append h]
  exact List.prefix_append _ _

namespace Merge

variable {m m' : Merge} {node : EmittedNode} {nodes nodes' : List EmittedNode}

structure Precedes (m m' : Merge) : Prop where
  canonical : m.canonical.toList <+: m'.canonical.toList
  kept : m.kept.toList <+: m'.kept.toList

theorem precedes_step (h : m.step node = .ok m') : m.Precedes m' := by
  obtain ⟨inputs, -, h⟩ := bind_eq_ok_iff.1 h
  cases h
  unfold place
  split
  · split <;> exact ⟨prefix_push _ _, prefix_push _ _⟩
  · exact ⟨prefix_push _ _, prefix_push _ _⟩

theorem precedes_foldlM (h : nodes.foldlM step m = .ok m') : m.Precedes m' := by
  induction nodes generalizing m with
  | nil =>
    cases h
    exact ⟨List.prefix_refl _, List.prefix_refl _⟩
  | cons node nodes ih =>
    obtain ⟨m₁, hstep, hrest⟩ := bind_eq_ok_iff.1 h
    have hfirst := precedes_step hstep
    have hlater := ih hrest
    exact ⟨hfirst.canonical.trans hlater.canonical, hfirst.kept.trans hlater.kept⟩

theorem precedes_ofNodes (hpre : nodes <+: nodes') (h : ofNodes nodes = .ok m) (h' : ofNodes nodes' = .ok m') :
    m.Precedes m' := by
  obtain ⟨rest, rfl⟩ := hpre
  rw [ofNodes, List.foldlM_append, bind_eq_ok_iff] at h'
  obtain ⟨m₁, hfirst, hrest⟩ := h'
  rw [← ofNodes, h] at hfirst
  cases hfirst
  exact precedes_foldlM hrest

theorem Precedes.stand_eq (h : m.Precedes m') {i : Nat} (hi : i < m.canonical.size) : m'.stand i = m.stand i := by
  have hget := Array.getElem?_eq_getElem hi
  rw [stand, stand, Array.getD_eq_getD_getElem?, Array.getD_eq_getD_getElem?, getElem?_mono h.canonical hget, hget]

end Merge

/-- A kept node keeps its position, and the others stay where they are not looked up. -/
theorem positions_mono {kept kept' : Array (Option EmittedNode)} (h : kept.toList <+: kept'.toList) {i : Nat}
    (hi : i ∈ survivors kept) :
    (positions kept'.size (survivors kept').toArray)[i]? =
      (positions kept.size (survivors kept).toArray)[i]? := by
  obtain ⟨rest, hrest⟩ := survivors_mono h
  rw [getElem?_positions hi, getElem?_positions ((survivors_mono h).subset hi), ← hrest,
    List.idxOf_append_of_mem hi]

namespace FirstUse

/-- The same slots and more that are not taken yet. -/
structure Widened (u v : FirstUse) : Prop where
  pool : v.pool = u.pool
  slots : u.slots.toList <+: v.slots.toList

theorem Widened.refl (u : FirstUse) : u.Widened u := ⟨rfl, List.prefix_refl _⟩

variable {α β : Type} {act act' : StateT FirstUse (Except Fault) α}

/-- Where `act` succeeds, the pool has only grown, and `act'` does the same with more slots. -/
def Mirrors (act act' : StateT FirstUse (Except Fault) α) : Prop :=
  ∀ u v a u', u.Widened v → act u = .ok (a, u') →
    u.pool.toList <+: u'.pool.toList ∧ ∃ v', act' v = .ok (a, v') ∧ u'.Widened v'

theorem mirrors_pure (a : α) : Mirrors (pure a) (pure a) := by
  rintro u v a u' hwide h
  cases h
  exact ⟨List.prefix_refl _, v, rfl, hwide⟩

theorem Mirrors.bind {f f' : α → StateT FirstUse (Except Fault) β} (h : Mirrors act act')
    (hf : ∀ a, Mirrors (f a) (f' a)) : Mirrors (act >>= f) (act' >>= f') := by
  intro u v b u' hwide hrun
  obtain ⟨⟨a, u₁⟩, hact, hrest⟩ := bind_eq_ok_iff.1 hrun
  obtain ⟨hpool₁, v₁, hact', hwide₁⟩ := h u v a u₁ hwide hact
  obtain ⟨hpool, v', hrest', hwide'⟩ := hf a u₁ v₁ b u' hwide₁ hrest
  exact ⟨hpool₁.trans hpool, v', bind_eq_ok_iff.2 ⟨(a, v₁), hact', hrest'⟩, hwide'⟩

theorem mirrors_mapM {f f' : α → StateT FirstUse (Except Fault) β} {as : List α}
    (h : ∀ a ∈ as, Mirrors (f a) (f' a)) : Mirrors (as.mapM f) (as.mapM f') := by
  induction as with
  | nil => exact mirrors_pure []
  | cons a as ih =>
    obtain ⟨ha, has⟩ := List.forall_mem_cons.1 h
    rw [List.mapM_cons, List.mapM_cons]
    exact ha.bind fun b => (ih has).bind fun bs => mirrors_pure (b :: bs)

variable {constants constants' : Array Sample} {position position' : Array Nat}

theorem mirrors_slot (hc : constants.toList <+: constants'.toList) (c : Nat) :
    Mirrors (slot constants c) (slot constants' c) := by
  intro u v k u' hwide hslot
  unfold slot at hslot
  split at hslot
  · next hlt =>
    have hget := getElem?_mono hwide.slots (Array.getElem?_eq_getElem hlt)
    obtain ⟨hlt', hsame⟩ := Array.getElem?_eq_some_iff.1 hget
    rw [slot, dif_pos hlt', hsame]
    cases hs : u.slots[c] with
    | some j =>
      rw [hs] at hslot
      cases hslot
      exact ⟨List.prefix_refl _, v, rfl, hwide⟩
    | none =>
      rw [hs] at hslot
      cases hvalue : constants[c]? with
      | none =>
        rw [hvalue] at hslot
        cases hslot
      | some value =>
        rw [hvalue] at hslot
        cases hslot
        rw [getElem?_mono hc hvalue, hwide.pool]
        refine ⟨prefix_push _ _, _, rfl, rfl, ?_⟩
        -- the same entry is written, and it is among the first
        obtain ⟨rest, hrest⟩ := hwide.slots
        rw [Array.toList_set, Array.toList_set, ← hrest, List.set_append_left _ _ (by simpa using hlt)]
        exact List.prefix_append _ _
  · cases hslot

theorem mirrors_renumberInput (hc : constants.toList <+: constants'.toList) {input : Input}
    (hp : ∀ source, input = .node source → position'[source.node]? = position[source.node]?) :
    Mirrors (renumberInput position constants input) (renumberInput position' constants' input) := by
  cases input with
  | constant c => exact (mirrors_slot hc c).bind fun k => mirrors_pure (Input.constant k)
  | node source =>
    rw [renumberInput, renumberInput, hp source rfl]
    cases position[source.node]? with
    | none =>
      intro u v a u' hwide h
      cases h
    | some p => exact mirrors_pure (Input.node ⟨p, source.output⟩)

theorem mirrors_renumberNode (hc : constants.toList <+: constants'.toList) {node : EmittedNode}
    (hp : ∀ i, node.Reads i → position'[i]? = position[i]?) :
    Mirrors (renumberNode position constants node) (renumberNode position' constants' node) := by
  refine (mirrors_mapM fun input hin => ?_).bind fun inputs => mirrors_pure { node with inputs }
  refine mirrors_renumberInput hc ?_
  rintro source rfl
  exact hp source.node ⟨source.output, hin⟩

theorem widened_empty (hc : constants.toList <+: constants'.toList) :
    (empty constants.size).Widened (empty constants'.size) := by
  have hle : constants.size ≤ constants'.size := by simpa using hc.length_le
  refine ⟨rfl, ?_⟩
  rw [empty, empty, Array.toList_replicate, Array.toList_replicate, ← Nat.add_sub_cancel' hle, List.replicate_add]
  exact List.prefix_append _ _

end FirstUse

theorem renumber_eq_ok_iff {kept : Array (Option EmittedNode)} {constants pool : Array Sample} {sorted : Array Nat}
    {out : List EmittedNode} :
    renumber kept constants sorted = .ok (out, pool) ↔ ∃ nodes u, sorted.toList.mapM (survivor kept) = .ok nodes ∧
      (nodes.mapM (renumberNode (positions kept.size sorted) constants)) (.empty constants.size) = .ok (out, u) ∧
      pool = u.pool := by
  constructor
  · intro h
    obtain ⟨nodes, hnodes, h⟩ := bind_eq_ok_iff.1 h
    obtain ⟨⟨out', u⟩, hrun, h⟩ := bind_eq_ok_iff.1 h
    cases h
    exact ⟨nodes, u, hnodes, hrun, rfl⟩
  · rintro ⟨nodes, u, hnodes, hrun, rfl⟩
    exact bind_eq_ok_iff.2 ⟨nodes, hnodes, bind_eq_ok_iff.2 ⟨(out, u), hrun, rfl⟩⟩

theorem survivor_eq_ok_iff {kept : Array (Option EmittedNode)} {i : Nat} {node : EmittedNode} :
    survivor kept i = .ok node ↔ kept[i]? = some (some node) := by
  unfold survivor
  split <;> simp_all

/-- Renumbering the kept nodes of a continued table. -/
theorem renumber_mono {kept kept' : Array (Option EmittedNode)} {constants constants' pool pool' : Array Sample}
    {out out' : List EmittedNode} (hk : kept.toList <+: kept'.toList)
    (hc : constants.toList <+: constants'.toList) (hread : ReadsKept kept)
    (h : renumber kept constants (survivors kept).toArray = .ok (out, pool))
    (h' : renumber kept' constants' (survivors kept').toArray = .ok (out', pool')) :
    out <+: out' ∧ pool.toList <+: pool'.toList := by
  obtain ⟨nodes, u, hnodes, hrun, rfl⟩ := renumber_eq_ok_iff.1 h
  obtain ⟨nodes', u', hnodes', hrun', rfl⟩ := renumber_eq_ok_iff.1 h'
  have hkept := mapM_eq_ok_iff.1 hnodes
  obtain ⟨rest, rfl⟩ : nodes <+: nodes' := by
    refine isPrefix_of_forall₂ hkept (mapM_eq_ok_iff.1 hnodes') (survivors_mono hk) fun i n n' hn hn' => ?_
    rw [survivor_eq_ok_iff] at hn hn'
    rw [getElem?_mono hk hn] at hn'
    exact Option.some.inj (Option.some.inj hn')
  have hmirrors : FirstUse.Mirrors
      (nodes.mapM (renumberNode (positions kept.size (survivors kept).toArray) constants))
      (nodes.mapM (renumberNode (positions kept'.size (survivors kept').toArray) constants')) := by
    refine FirstUse.mirrors_mapM fun n hn => FirstUse.mirrors_renumberNode hc fun j hj => ?_
    obtain ⟨i, -, hi⟩ := exists_left_of_forall₂ hkept hn
    exact positions_mono hk (mem_survivors.2 (hread i n (survivor_eq_ok_iff.1 hi) j hj).2)
  obtain ⟨-, v, hfirst, hwide⟩ := hmirrors _ _ _ _ (FirstUse.widened_empty hc) hrun
  rw [List.mapM_append] at hrun'
  obtain ⟨⟨out₁, v₁⟩, hrun₁, hrest⟩ := bind_eq_ok_iff.1 hrun'
  rw [hfirst] at hrun₁
  cases hrun₁
  obtain ⟨⟨out₂, v₂⟩, hrun₂, hdone⟩ := bind_eq_ok_iff.1 hrest
  cases hdone
  have hgrow : FirstUse.Mirrors
      (rest.mapM (renumberNode (positions kept'.size (survivors kept').toArray) constants'))
      (rest.mapM (renumberNode (positions kept'.size (survivors kept').toArray) constants')) :=
    FirstUse.mirrors_mapM fun n _ => FirstUse.mirrors_renumberNode (List.prefix_refl _) fun _ _ => rfl
  obtain ⟨hpool, -⟩ := hgrow _ _ _ _ (.refl v) hrun₂
  exact ⟨List.prefix_append _ _, hwide.pool ▸ hpool⟩

end SoundGraph
