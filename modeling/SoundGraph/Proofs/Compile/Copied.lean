import SoundGraph.Proofs.Compile.Appending
import SoundGraph.Proofs.Compile.Sharing
import SoundGraph.Proofs.Expansion.Twins
import SoundGraph.Proofs.Schedule.Repeated

/-! Ordering a table with copies at its end. From some place on, each node of the table has a copy behind the table,
which reads what the node reads or the copies of the pure nodes among it. A pure copy is merged with its original,
which is found by following the copies in their order: what a copy reads is the same once merged. An impure copy is
kept, and comes out as its original does. -/

namespace SoundGraph

theorem map_eq_map_of_forall₂ {α β γ : Type} {R : α → β → Prop} {f : α → γ} {g : β → γ} {as : List α} {bs : List β}
    (h : List.Forall₂ R as bs) (hfg : ∀ a ∈ as, ∀ b ∈ bs, R a b → f a = g b) : as.map f = bs.map g := by
  induction h with
  | nil => rfl
  | cons hr _ ih =>
    rw [List.map_cons, List.map_cons, hfg _ List.mem_cons_self _ List.mem_cons_self hr]
    rw [ih fun a ha b hb => hfg a (List.mem_cons_of_mem _ ha) b (List.mem_cons_of_mem _ hb)]

/-- Twins become the same node where twin sources do. -/
theorem EmittedNode.Twins.redirect_eq {twin : Nat → Nat → Prop} {n n' : EmittedNode} (h : n.Twins twin n')
    {f g : Nat → Nat} (hfg : ∀ i j, n.Reads i → n'.Reads j → twin i j → f i = g j) :
    n.redirect f = n'.redirect g := by
  obtain ⟨inputs, rfl, hin⟩ := h
  rw [EmittedNode.redirect, EmittedNode.redirect]
  congr 1
  refine map_eq_map_of_forall₂ hin fun input hmem input' hmem' htwins => ?_
  cases htwins with
  | constant c => rfl
  | @node r r' h =>
    obtain ⟨htwin, hout⟩ := h
    rw [Input.redirect, Input.redirect, hout, hfg _ _ ⟨r.output, hmem⟩ ⟨r'.output, hmem'⟩ htwin]

/-- What may be read for node `i`: the node itself and, if it is pure, its copy. -/
def Repeats (nodes : Array EmittedNode) (start i j : Nat) : Prop :=
  j = i ∨ start ≤ i ∧ j = i + (nodes.size - start) ∧ ∃ n, nodes[i]? = some n ∧ n.flags.pure = true

/-- The `k`-th of the copies is that of node `start + k`. -/
def CopiedFrom (nodes : Array EmittedNode) (start : Nat) (copies : List EmittedNode) : Prop :=
  ∀ (k : Nat) c, copies[k]? = some c →
    ∃ n, nodes[start + k]? = some n ∧ n.Twins (Repeats nodes start) c

namespace Merge

variable {m m' : Merge} {nodes : Array EmittedNode} {start : Nat} {copies : List EmittedNode}

/-- The table without the copies is merged as it was; what comes of the copies is read off the longer table. -/
structure MergedWith (m m' : Merge) (nodes : Array EmittedNode) (start : Nat) (copies : List EmittedNode) : Prop where
  covers : m.Covers nodes.toList
  covers' : m'.Covers (nodes.toList ++ copies)
  precedes : m.Precedes m'
  back : ∀ (i : Nat) n, (nodes.toList ++ copies)[i]? = some n → ∀ j, n.Reads j → j < i
  copied : CopiedFrom nodes start copies

theorem getElem?_old {i : Nat} {n : EmittedNode} (hn : nodes[i]? = some n) :
    (nodes.toList ++ copies)[i]? = some n := by
  rw [← Array.getElem?_toList] at hn
  rw [List.getElem?_append_left (List.getElem?_eq_some_iff.1 hn).1, hn]

theorem getElem?_copy {k : Nat} {c : EmittedNode} (hc : copies[k]? = some c) :
    (nodes.toList ++ copies)[nodes.size + k]? = some c := by
  rw [List.getElem?_append_right (by simp), Array.length_toList, Nat.add_sub_cancel_left, hc]

def apart (nodes : Array EmittedNode) (start count : Nat) : List Nat :=
  (List.range' start count).filter fun i => nodes[i]?.any fun n => !n.flags.pure

theorem mem_apart {count i : Nat} :
    i ∈ apart nodes start count ↔
      (start ≤ i ∧ i < start + count) ∧ ∃ n, nodes[i]? = some n ∧ n.flags.pure = false := by
  rw [apart, List.mem_filter, List.mem_range'_1]
  cases nodes[i]? <;> simp

namespace MergedWith

theorem stand_old (h : MergedWith m m' nodes start copies) {i : Nat} (hi : i < nodes.size) :
    m'.stand i = m.stand i :=
  h.precedes.stand_eq (by rwa [h.covers.size_canonical, Array.length_toList])

/-- Along the copies: each reads what its original reads, once merged. -/
theorem stand_copy (h : MergedWith m m' nodes start copies) {k : Nat} {c n : EmittedNode}
    (hc : copies[k]? = some c) (hn : nodes[start + k]? = some n) :
    n.redirect m.stand = c.redirect m'.stand ∧
      (n.flags.pure = true → m'.stand (nodes.size + k) = m.stand (start + k)) := by
  induction k using Nat.strongRecOn generalizing c n with
  | ind k ih =>
    obtain ⟨n₀, hn₀, htwins⟩ := h.copied k c hc
    obtain rfl := Option.some.inj (hn.symm.trans hn₀)
    have hlt := (Array.getElem?_eq_some_iff.1 hn).1
    have hback := h.back _ n (getElem?_old hn)
    have hback' := h.back _ c (getElem?_copy hc)
    have hsame : n.redirect m.stand = c.redirect m'.stand := by
      refine htwins.redirect_eq fun i j hi hj htwin => ?_
      have hi := hback i hi
      have hj := hback' j hj
      rcases htwin with rfl | ⟨hle, rfl, n₁, hn₁, hpure⟩
      · exact (h.stand_old (by omega)).symm
      · -- the copy of an earlier node
        obtain ⟨k₁, rfl⟩ := Nat.exists_eq_add_of_le hle
        have hk₁ : start + k₁ + (nodes.size - start) = nodes.size + k₁ := by omega
        rw [hk₁] at hj ⊢
        have hlen := (List.getElem?_eq_some_iff.1 hc).1
        have hc₁ : copies[k₁]? = some copies[k₁] := List.getElem?_eq_getElem (by omega)
        exact ((ih k₁ (by omega) hc₁ hn₁).2 hpure).symm
    refine ⟨hsame, fun hpure => ?_⟩
    have hold : n.redirect m'.stand = n.redirect m.stand :=
      EmittedNode.redirect_congr fun i hi => h.stand_old (Nat.lt_trans (hback i hi) hlt)
    rw [← h.stand_old hlt, eq_comm]
    exact (h.covers'.stand_eq_iff_redirect (getElem?_old hn) (getElem?_copy hc) hpure).2 (hold.trans hsame)

theorem size_kept' (h : MergedWith m m' nodes start copies) : m'.kept.size = m.kept.size + copies.length := by
  rw [h.covers'.size_kept, h.covers.size_kept, List.length_append]

theorem size_kept (h : MergedWith m m' nodes start copies) : m.kept.size = nodes.size := by
  rw [h.covers.size_kept, Array.length_toList]

/-- A kept copy is the node that its original is kept as. -/
theorem kept_copy (h : MergedWith m m' nodes start copies) {k : Nat} {c n : EmittedNode}
    (hc : copies[k]? = some c) (hn : nodes[start + k]? = some n) (himpure : n.flags.pure = false) :
    m.kept[start + k]? = some (some (n.redirect m.stand)) ∧
      m'.kept[nodes.size + k]? = some (some (n.redirect m.stand)) := by
  obtain ⟨n₀, hn₀, inputs, rfl, -⟩ := h.copied k c hc
  obtain rfl := Option.some.inj (hn.symm.trans hn₀)
  rw [← Array.getElem?_toList] at hn
  have hold := h.covers.kept_stand _ n hn
  have hnew := h.covers'.kept_stand _ _ (getElem?_copy hc)
  rw [h.covers.stand_impure _ n hn himpure] at hold
  rw [h.covers'.stand_impure _ _ (getElem?_copy hc) himpure] at hnew
  rw [Array.getElem?_toList] at hn
  exact ⟨hold, (h.stand_copy hc hn).1 ▸ hnew⟩

/-- A pure copy is dropped: its original stands for it. -/
theorem drop_copy (h : MergedWith m m' nodes start copies) {k : Nat} {c n : EmittedNode}
    (hc : copies[k]? = some c) (hn : nodes[start + k]? = some n) (hpure : n.flags.pure = true) :
    m'.kept[nodes.size + k]? = some none := by
  have hlt : nodes.size + k < m'.kept.size := by
    have := (List.getElem?_eq_some_iff.1 hc).1
    rw [h.size_kept', h.size_kept]
    omega
  have hget := Array.getElem?_eq_getElem hlt
  cases hentry : m'.kept[nodes.size + k] with
  | none => rw [hget, hentry]
  | some node =>
    have hself := h.covers'.stand_kept _ node (hget.trans (congrArg some hentry))
    have hlt := (Array.getElem?_eq_some_iff.1 hn).1
    have hle := h.covers.stand_le (start + k) (by simpa using hlt)
    rw [(h.stand_copy hc hn).2 hpure] at hself
    omega

/-- The copies that are kept come behind all others. -/
theorem survivors_eq (h : MergedWith m m' nodes start copies) :
    survivors m'.kept =
      survivors m.kept ++ (apart nodes start copies.length).map (· + (nodes.size - start)) := by
  have hcount : m'.kept.size - m.kept.size = copies.length := by rw [h.size_kept', Nat.add_sub_cancel_left]
  rw [survivors_append h.precedes.kept, hcount, h.size_kept, apart, List.range'_eq_map_range,
    List.range'_eq_map_range, List.filter_map, List.filter_map, List.map_map]
  congr 1
  have hentry : ∀ k ∈ List.range copies.length, nodes.size + k = start + k + (nodes.size - start) ∧
      ((m'.kept.getD (nodes.size + k) none).isSome = nodes[start + k]?.any fun n => !n.flags.pure) := by
    intro k hk
    have hc := List.getElem?_eq_getElem (List.mem_range.1 hk)
    obtain ⟨n, hn, -⟩ := h.copied k _ hc
    have hlt := (Array.getElem?_eq_some_iff.1 hn).1
    refine ⟨by omega, ?_⟩
    rw [Array.getD_eq_getD_getElem?, hn]
    cases hpure : n.flags.pure with
    | true => simp [h.drop_copy hc hn hpure, hpure]
    | false => simp [(h.kept_copy hc hn hpure).2, hpure]
  simp only [Function.comp_def]
  rw [List.filter_congr fun k hk => (hentry k hk).2]
  exact List.map_congr_left fun k hk => (hentry k (List.mem_of_mem_filter hk)).1

/-- A copy that is kept stands for what its original is kept as. -/
theorem kept_of_apart (h : MergedWith m m' nodes start copies) {i : Nat}
    (hi : i ∈ apart nodes start copies.length) :
    i ∈ survivors m.kept ∧ ∃ n, nodes[i]? = some n ∧ m.kept[i]? = some (some (n.redirect m.stand)) ∧
      m'.kept[i + (nodes.size - start)]? = some (some (n.redirect m.stand)) := by
  obtain ⟨⟨hle, hlt⟩, n, hn, himpure⟩ := mem_apart.1 hi
  obtain ⟨k, rfl⟩ := Nat.exists_eq_add_of_le hle
  have hc := List.getElem?_eq_getElem (Nat.lt_of_add_lt_add_left hlt)
  obtain ⟨hold, hnew⟩ := h.kept_copy hc hn himpure
  have hsize := (Array.getElem?_eq_some_iff.1 hn).1
  have hplace : start + k + (nodes.size - start) = nodes.size + k := by omega
  exact ⟨mem_survivors.2 ⟨_, hold⟩, n, hn, hold, hplace ▸ hnew⟩

/-- The copies that are kept are renumbered like their originals. -/
theorem renumber_eq (h : MergedWith m m' nodes start copies) {constants pool : Array Sample} {out : List EmittedNode}
    (hread : ReadsKept m.kept) (hren : renumber m.kept constants (survivors m.kept).toArray = .ok (out, pool)) :
    ∃ extra, renumber m'.kept constants (survivors m'.kept).toArray = .ok (out ++ extra, pool) ∧
      List.Forall₂ (fun i n' => out[(survivors m.kept).idxOf i]? = some n' ∧
        ∃ n inputs, nodes[i]? = some n ∧ n' = { n with inputs }) (apart nodes start copies.length) extra := by
  obtain ⟨ns, u, hns, hrun, rfl⟩ := renumber_eq_ok_iff.1 hren
  rw [List.toList_toArray] at hns
  have hkept := mapM_eq_ok_iff.1 hns
  -- every kept node could be renumbered once more
  have hagain := forall₂_comp hkept (FirstUse.forall₂_repeat (FirstUse.repeatable_renumberNode _) hrun)
  have hexists : ∀ i ∈ apart nodes start copies.length, ∃ p : EmittedNode × EmittedNode,
      m.kept[i]? = some (some p.1) ∧ survivor m'.kept (i + (nodes.size - start)) = .ok p.1 ∧
      renumberNode (positions m.kept.size (survivors m.kept).toArray) constants p.1 u = .ok (p.2, u) ∧
      out[(survivors m.kept).idxOf i]? = some p.2 ∧ ∃ n inputs, nodes[i]? = some n ∧ p.2 = { n with inputs } := by
    intro i hi
    obtain ⟨hmem, n, hn, hold, hnew⟩ := h.kept_of_apart hi
    have hplace := List.getElem?_eq_getElem (List.idxOf_lt_length_of_mem hmem)
    rw [List.getElem_idxOf] at hplace
    obtain ⟨n', hn', n₁, hn₁, hstep⟩ := exists_right_of_forall₂ hagain hplace
    rw [survivor_eq_ok_iff, hold, Option.some.injEq, Option.some.injEq] at hn₁
    subst hn₁
    obtain ⟨⟨inputs, u₁⟩, -, hdone⟩ := bind_eq_ok_iff.1 hstep
    cases hdone
    exact ⟨(n.redirect m.stand, _), hold, survivor_eq_ok_iff.2 hnew, hstep, hn', n, inputs, hn, rfl⟩
  obtain ⟨pairs, hpairs⟩ := exists_forall₂_iff.2 hexists
  have hnodes' : (survivors m'.kept).mapM (survivor m'.kept) = .ok (ns ++ pairs.map Prod.fst) := by
    rw [h.survivors_eq, mapM_eq_ok_iff]
    refine List.rel_append (hkept.imp fun i n hn => ?_) (List.forall₂_map_left_iff.2 (List.forall₂_map_right_iff.2 ?_))
    · rw [survivor_eq_ok_iff] at hn ⊢
      exact getElem?_mono h.precedes.kept hn
    · exact hpairs.imp fun _ _ hp => hp.2.1
  have hsource : ∀ n ∈ ns ++ pairs.map Prod.fst, ∃ i : Nat, m.kept[i]? = some (some n) := by
    intro n hn
    rcases List.mem_append.1 hn with hn | hn
    · obtain ⟨i, -, hi⟩ := exists_left_of_forall₂ hkept hn
      exact ⟨i, survivor_eq_ok_iff.1 hi⟩
    · obtain ⟨p, hp, rfl⟩ := List.mem_map.1 hn
      obtain ⟨i, -, hi, -⟩ := exists_left_of_forall₂ hpairs hp
      exact ⟨i, hi⟩
  have hsame : ∀ n ∈ ns ++ pairs.map Prod.fst,
      renumberNode (positions m'.kept.size (survivors m'.kept).toArray) constants n =
        renumberNode (positions m.kept.size (survivors m.kept).toArray) constants n := by
    intro n hn
    obtain ⟨i, hi⟩ := hsource n hn
    exact renumberNode_congr fun j hj => positions_mono h.precedes.kept (mem_survivors.2 (hread i n hi j hj).2)
  have hlast : (pairs.map Prod.fst).mapM
      (renumberNode (positions m.kept.size (survivors m.kept).toArray) constants) u = .ok (pairs.map Prod.snd, u) := by
    refine FirstUse.mapM_of_still (List.forall₂_map_left_iff.2 (List.forall₂_map_right_iff.2 ?_))
    refine List.forall₂_same.2 fun p hp => ?_
    obtain ⟨i, -, -, -, hstep, -⟩ := exists_left_of_forall₂ hpairs hp
    exact hstep
  refine ⟨pairs.map Prod.snd, renumber_eq_ok_iff.2 ⟨_, u, hnodes', ?_, rfl⟩, ?_⟩
  · rw [mapM_congr hsame, List.mapM_append]
    exact bind_eq_ok_iff.2 ⟨(out, u), hrun, bind_eq_ok_iff.2 ⟨_, hlast, rfl⟩⟩
  · exact List.forall₂_map_right_iff.2 (hpairs.imp fun _ _ hp => hp.2.2.2)

end MergedWith

end Merge

/-- Entries read off from the left to the right. -/
theorem sublist_of_places {α : Type} {l as : List α} {places : List Nat} (hplaces : places.Pairwise (· < ·))
    (h : List.Forall₂ (fun k a => l[k]? = some a) places as) : as.Sublist l := by
  suffices hdrop : ∀ n, (∀ k ∈ places, n ≤ k) → as.Sublist (l.drop n) from hdrop 0 fun k _ => Nat.zero_le k
  induction h with
  | nil => exact fun n _ => List.nil_sublist _
  | @cons k a places as hk _ ih =>
    intro n hle
    obtain ⟨hbefore, hplaces⟩ := List.pairwise_cons.1 hplaces
    obtain ⟨hlt, rfl⟩ := List.getElem?_eq_some_iff.1 hk
    have hrest := (ih hplaces (k + 1) hbefore).cons_cons l[k]
    rw [← List.drop_eq_getElem_cons hlt] at hrest
    exact hrest.trans (List.drop_sublist_drop_left l (hle k List.mem_cons_self))

/-- The longer table is ordered as the shorter one, and the impure copies come out once more behind it, in their
order: each as its original has come out. -/
theorem order_copied {nodes nodes' : Array EmittedNode} {constants pool : Array Sample} {start : Nat}
    {copies out : List EmittedNode} (hlist : nodes'.toList = nodes.toList ++ copies)
    (hback : Backward constants nodes) (hback' : Backward constants nodes') (hcopied : CopiedFrom nodes start copies)
    (horder : order nodes constants = .ok (out, pool)) :
    ∃ extra : List EmittedNode, order nodes' constants = .ok (out ++ extra, pool) ∧ extra.Sublist out ∧
      List.Forall₂ (fun i n' => ∃ n inputs, nodes[i]? = some n ∧ n' = { n with inputs })
        (Merge.apart nodes start copies.length) extra := by
  obtain ⟨m, hm, hread, hren⟩ := stages_of_order hback horder
  obtain ⟨m₁, hm₁, hcov⟩ := Merge.covers_ofNodes fun _ _ hn => hback.reads_lt hn
  obtain rfl := Except.ok.inj (hm.symm.trans hm₁)
  obtain ⟨m', hm', hcov'⟩ := Merge.covers_ofNodes fun _ _ hn => hback'.reads_lt hn
  rw [hlist] at hm' hcov'
  have hmerged : m.MergedWith m' nodes start copies :=
    ⟨hcov, hcov', Merge.precedes_ofNodes (List.prefix_append _ _) hm hm',
      fun i n hn => hback'.reads_lt (hlist ▸ hn), hcopied⟩
  obtain ⟨extra, hren', hextra⟩ := hmerged.renumber_eq hread hren
  have hplaces : ((Merge.apart nodes start copies.length).map (survivors m.kept).idxOf).Pairwise (· < ·) := by
    refine List.pairwise_map.2 (List.Pairwise.imp_of_mem (fun hi hj hlt => ?_)
      (List.Pairwise.filter _ List.pairwise_lt_range'))
    exact idxOf_lt_idxOf (pairwise_survivors _) (hmerged.kept_of_apart hi).1 (hmerged.kept_of_apart hj).1 hlt
  refine ⟨extra, ?_, ?_, hextra.imp fun _ _ h => h.2⟩
  · rw [order_eq hback', hlist, hm']
    exact mapError_eq_ok_iff.2 hren'
  · exact sublist_of_places hplaces (List.forall₂_map_left_iff.2 (hextra.imp fun _ _ h => h.1))

end SoundGraph
