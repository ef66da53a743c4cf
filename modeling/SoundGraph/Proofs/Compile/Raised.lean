import SoundGraph.Proofs.Compile.Appending
import SoundGraph.Proofs.Compile.Sharing
import SoundGraph.Proofs.Schedule.Raised

/-! Ordering a table with other nodes at its head. The nodes at the head are impure and read nothing, so they are
merged with none; the nodes behind them are merged exactly as before, because two of them read the same nodes, once
these are merged, in the one table if they do in the other. A node stands for another one at the new number of the
one that stood for it. -/

namespace SoundGraph

namespace Merge

structure Raised (m m' : Merge) (head head' rest : List EmittedNode) (d : Nat) : Prop where
  length : head'.length = head.length + d
  covers : m.Covers (head ++ rest)
  covers' : m'.Covers (head' ++ rest.map (EmittedNode.redirect (raise head.length d)))
  back : ∀ (i : Nat) n, (head ++ rest)[i]? = some n → ∀ j, n.Reads j → j < i
  head : ∀ n ∈ head, n.flags.pure = false ∧ n.inputs = []
  head' : ∀ n ∈ head', n.flags.pure = false ∧ n.inputs = []

namespace Raised

variable {m m' : Merge} {head head' rest : List EmittedNode} {d i j : Nat} {n n' : EmittedNode}

theorem getElem?_rest (h : Raised m m' head head' rest d) (hi : head.length ≤ i) :
    (head' ++ rest.map (EmittedNode.redirect (raise head.length d)))[raise head.length d i]? =
      (head ++ rest)[i]?.map (EmittedNode.redirect (raise head.length d)) := by
  rw [getElem?_raise h.length hi, List.getElem?_map, List.getElem?_append_right hi]

/-- An impure node has an impure one at its new number, a pure node itself, renumbered. -/
theorem getElem?_new (h : Raised m m' head head' rest d) (hn : (head ++ rest)[i]? = some n) :
    ∃ n', (head' ++ rest.map (EmittedNode.redirect (raise head.length d)))[raise head.length d i]? = some n' ∧
      n'.flags.pure = n.flags.pure ∧ (n.flags.pure = true → n' = n.redirect (raise head.length d)) := by
  rcases Nat.lt_or_ge i head.length with hlt | hge
  · rw [List.getElem?_append_left hlt] at hn
    have himpure := (h.head n (List.mem_of_getElem? hn)).1
    have hlt' : i < head'.length := by rw [h.length]; omega
    refine ⟨head'[i], ?_, ?_, fun hpure => ?_⟩
    · rw [raise_of_lt hlt, List.getElem?_append_left hlt', List.getElem?_eq_getElem hlt']
    · rw [himpure, (h.head' _ (List.getElem_mem hlt')).1]
    · rw [hpure] at himpure
      cases himpure
  · rw [h.getElem?_rest hge, hn]
    exact ⟨_, rfl, rfl, fun _ => rfl⟩

theorem raise_lt (h : Raised m m' head head' rest d) (hi : i < (head ++ rest).length) :
    raise head.length d i < (head' ++ rest.map (EmittedNode.redirect (raise head.length d))).length := by
  have hlen := h.length
  simp only [List.length_append, List.length_map] at hi ⊢
  unfold raise
  split <;> omega

/-- An impure node stands for no other one, in either table. -/
theorem stand_eq_iff_of_impure (h : Raised m m' head head' rest d) (hn : (head ++ rest)[i]? = some n)
    (himpure : n.flags.pure = false) (hj : j < (head ++ rest).length) :
    m.stand j = m.stand i ↔ m'.stand (raise head.length d j) = m'.stand (raise head.length d i) := by
  obtain ⟨n', hn', hflags, -⟩ := h.getElem?_new hn
  refine ⟨fun heq => ?_, fun heq => ?_⟩
  · rw [h.covers.stand_inj_of_impure hn himpure hj heq]
  · have hsame := h.covers'.stand_inj_of_impure hn' (hflags.trans himpure) (h.raise_lt hj) heq
    rw [(strictMono_raise _ _).injective hsame]

/-- By induction on the first node: its sources come before it. -/
theorem stand_eq_iff (h : Raised m m' head head' rest d) (hi : i < (head ++ rest).length)
    (hj : j < (head ++ rest).length) :
    m.stand i = m.stand j ↔ m'.stand (raise head.length d i) = m'.stand (raise head.length d j) := by
  induction i using Nat.strongRecOn generalizing j with
  | ind i ih =>
    have hn := List.getElem?_eq_getElem hi
    have hn' := List.getElem?_eq_getElem hj
    generalize (head ++ rest)[i] = n at hn
    generalize (head ++ rest)[j] = n' at hn'
    cases hp : n.flags.pure with
    | false => rw [eq_comm, h.stand_eq_iff_of_impure hn hp hj, eq_comm]
    | true =>
      cases hp' : n'.flags.pure with
      | false => exact h.stand_eq_iff_of_impure hn' hp' hi
      | true =>
        obtain ⟨a, ha, hflags, hnew⟩ := h.getElem?_new hn
        obtain ⟨b, hb, -, hnew'⟩ := h.getElem?_new hn'
        obtain rfl := hnew hp
        obtain rfl := hnew' hp'
        have hin : n.inputs.map (Input.redirect m.stand) = n'.inputs.map (Input.redirect m.stand) ↔
            n.inputs.map (Input.redirect fun i => m'.stand (raise head.length d i)) =
              n'.inputs.map (Input.redirect fun i => m'.stand (raise head.length d i)) := by
          refine map_eq_map_iff_of_forall fun input hmem input' hmem' => ?_
          cases input with
          | constant index => cases input' <;> simp [Input.redirect]
          | node source =>
            cases input' with
            | constant index => simp [Input.redirect]
            | node source' =>
              have hlt := h.back i n hn source.node ⟨source.output, hmem⟩
              have hlt' := h.back j n' hn' source'.node ⟨source'.output, hmem'⟩
              have hsrc := ih source.node hlt (by omega) (j := source'.node) (by omega)
              simp [Input.redirect, hsrc]
        rw [h.covers.stand_eq_iff_redirect hn hn' hp, h.covers'.stand_eq_iff_redirect ha hb (hflags.trans hp),
          EmittedNode.redirect_redirect, EmittedNode.redirect_redirect]
        simp only [EmittedNode.redirect, EmittedNode.mk.injEq, hin]

/-- A node stands for another one where it did, at its new number. -/
theorem stand_raise (h : Raised m m' head head' rest d) (hi : i < (head ++ rest).length) :
    m'.stand (raise head.length d i) = raise head.length d (m.stand i) := by
  have hmono := strictMono_raise head.length d
  have hle := h.covers.stand_le i hi
  have hself : m.stand (m.stand i) = m.stand i :=
    h.covers.stand_kept _ _ (h.covers.kept_stand i _ (List.getElem?_eq_getElem hi))
  rw [← (h.stand_eq_iff (by omega) hi).1 hself]
  generalize m.stand i = j at hle hself
  have hj : j < (head ++ rest).length := by omega
  have hj' := h.raise_lt hj
  have hle' := h.covers'.stand_le _ hj'
  have hself' : m'.stand (m'.stand (raise head.length d j)) = m'.stand (raise head.length d j) :=
    h.covers'.stand_kept _ _ (h.covers'.kept_stand _ _ (List.getElem?_eq_getElem hj'))
  generalize hl : m'.stand (raise head.length d j) = l at hle' hself'
  rcases Nat.lt_or_ge l head'.length with hlt | hge
  · -- a node at the head stands for itself only
    have hhead : (head' ++ rest.map (EmittedNode.redirect (raise head.length d)))[l]? = some head'[l] := by
      rw [List.getElem?_append_left hlt, List.getElem?_eq_getElem hlt]
    exact (h.covers'.stand_inj_of_impure hhead (h.head' _ (List.getElem_mem hlt)).1 hj' (hl.trans hself'.symm)).symm
  · -- a later one is the new number of a node for which `j` stands
    rw [h.length] at hge
    obtain ⟨i', -, rfl⟩ := exists_raise_eq hge
    have hle₁ : i' ≤ j := hmono.le_iff_le.1 hle'
    have hsame : m.stand i' = m.stand j := (h.stand_eq_iff (by omega) hj).2 (hself'.trans hl.symm)
    have hle₂ := h.covers.stand_le i' (by omega)
    rw [hsame, hself] at hle₂
    rw [Nat.le_antisymm hle₁ hle₂]

theorem kept_raise (h : Raised m m' head head' rest d) (hi : head.length ≤ i) :
    m'.kept[raise head.length d i]? = m.kept[i]?.map (Option.map (EmittedNode.redirect (raise head.length d))) := by
  have hsize := h.covers.size_kept
  cases hentry : m.kept[i]? with
  | none =>
    have hge := Array.getElem?_eq_none_iff.1 hentry
    refine Array.getElem?_eq_none_iff.2 ?_
    rw [h.covers'.size_kept, raise_of_le hi]
    have hlen := h.length
    simp only [List.length_append, List.length_map] at hsize ⊢
    omega
  | some entry =>
    have hlt : i < (head ++ rest).length := hsize ▸ (Array.getElem?_eq_some_iff.1 hentry).1
    cases entry with
    | some n' =>
      obtain ⟨n, hn, rfl⟩ := h.covers.source hentry
      have hkept := h.covers'.kept_stand (raise head.length d i) _ ((h.getElem?_rest hi).trans (congrArg _ hn))
      rw [h.stand_raise hlt, h.covers.stand_kept i _ hentry] at hkept
      rw [hkept, Option.map_some, Option.map_some, EmittedNode.redirect_redirect, EmittedNode.redirect_redirect]
      congr 2
      exact EmittedNode.redirect_congr fun j hj => h.stand_raise (Nat.lt_trans (h.back i n hn j hj) hlt)
    | none =>
      have hlt' : raise head.length d i < m'.kept.size := h.covers'.size_kept ▸ h.raise_lt hlt
      have hget := Array.getElem?_eq_getElem hlt'
      cases hnew : m'.kept[raise head.length d i] with
      | none => rw [hget, hnew]; rfl
      | some n' =>
        have hself := h.covers'.stand_kept _ n' (hget.trans (congrArg some hnew))
        rw [h.stand_raise hlt] at hself
        have hkept := h.covers.kept_stand i _ (List.getElem?_eq_getElem hlt)
        rw [(strictMono_raise _ _).injective hself, hentry] at hkept
        cases hkept

/-- What is kept of the two tables. -/
theorem kept_eq (h : Raised m m' head head' rest d) :
    ∃ entries, m.kept.toList = head.map some ++ entries ∧
      m'.kept.toList = head'.map some ++ entries.map (Option.map (EmittedNode.redirect (raise head.length d))) := by
  refine ⟨m.kept.toList.drop head.length, List.ext_getElem? fun i => ?_, List.ext_getElem? fun i => ?_⟩
  · rcases Nat.lt_or_ge i head.length with hlt | hge
    · have hn : (head ++ rest)[i]? = some head[i] := by rw [List.getElem?_append_left hlt, List.getElem?_eq_getElem hlt]
      obtain ⟨himpure, hinputs⟩ := h.head _ (List.getElem_mem hlt)
      rw [Array.getElem?_toList, h.covers.kept_of_impure hn himpure hinputs,
        List.getElem?_append_left (by simpa using hlt), List.getElem?_map, List.getElem?_eq_getElem hlt]
      rfl
    · rw [List.getElem?_append_right (by simpa using hge), List.length_map, List.getElem?_drop,
        Nat.add_sub_cancel' hge]
  · rcases Nat.lt_or_ge i head'.length with hlt | hge
    · have hn : (head' ++ rest.map (EmittedNode.redirect (raise head.length d)))[i]? = some head'[i] := by
        rw [List.getElem?_append_left hlt, List.getElem?_eq_getElem hlt]
      obtain ⟨himpure, hinputs⟩ := h.head' _ (List.getElem_mem hlt)
      rw [Array.getElem?_toList, h.covers'.kept_of_impure hn himpure hinputs,
        List.getElem?_append_left (by simpa using hlt), List.getElem?_map, List.getElem?_eq_getElem hlt]
      rfl
    · rw [h.length] at hge
      obtain ⟨j, hj, rfl⟩ := exists_raise_eq hge
      rw [getElem?_raise (by rw [List.length_map, h.length]) hj, Array.getElem?_toList, h.kept_raise hj,
        List.getElem?_map, List.getElem?_drop, Nat.add_sub_cancel' hj, Array.getElem?_toList]

end Raised

end Merge

/-- Other nodes at the head of a table come out at the head, and the rest comes out as before, renumbered. -/
theorem order_raise {nodes nodes' : Array EmittedNode} {constants pool : Array Sample}
    {head head' rest out : List EmittedNode} {d : Nat} (hlen : head'.length = head.length + d)
    (hlist : nodes.toList = head ++ rest)
    (hlist' : nodes'.toList = head' ++ rest.map (EmittedNode.redirect (raise head.length d)))
    (hhead : ∀ n ∈ head, n.flags.pure = false ∧ n.inputs = [])
    (hhead' : ∀ n ∈ head', n.flags.pure = false ∧ n.inputs = []) (hback : Backward constants nodes)
    (hback' : Backward constants nodes') (horder : order nodes constants = .ok (out, pool)) :
    ∃ tail, out = head ++ tail ∧
      order nodes' constants = .ok (head' ++ tail.map (EmittedNode.redirect (raise head.length d)), pool) := by
  obtain ⟨m, hm, hread, hren⟩ := stages_of_order hback horder
  obtain ⟨m₁, hm₁, hcov⟩ := Merge.covers_ofNodes fun _ _ hn => hback.reads_lt hn
  obtain rfl := Except.ok.inj (hm.symm.trans hm₁)
  obtain ⟨m', hm', hcov'⟩ := Merge.covers_ofNodes fun _ _ hn => hback'.reads_lt hn
  have hraised : m.Raised m' head head' rest d :=
    ⟨hlen, hlist ▸ hcov, hlist' ▸ hcov', fun i n hn => hback.reads_lt (hlist ▸ hn), hhead, hhead'⟩
  obtain ⟨entries, hkept, hkept'⟩ := hraised.kept_eq
  obtain ⟨tail, rfl, hren'⟩ := renumber_raise hlen hkept hkept' (fun n hn => (hhead n hn).2)
    (fun n hn => (hhead' n hn).2) hread hren
  refine ⟨tail, rfl, ?_⟩
  rw [order_eq hback', hm']
  exact mapError_eq_ok_iff.2 hren'

end SoundGraph
