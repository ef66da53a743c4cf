import SoundGraph.Proofs.Schedule.Linked

/-! Sorting never reorders: when kept nodes read earlier kept nodes only, they are emitted in the order of
discovery. The smallest kept node that is not emitted waits for earlier kept nodes, all of them emitted,
so it is ready; and nothing smaller is. -/

namespace SoundGraph

/-- The kept nodes in the order of discovery. -/
def survivors (kept : Array (Option EmittedNode)) : List Nat :=
  (List.range kept.size).filter fun i => (kept.getD i none).isSome

theorem mem_survivors {kept : Array (Option EmittedNode)} {i : Nat} :
    i ∈ survivors kept ↔ IsKept kept i := by
  rw [survivors, List.mem_filter, List.mem_range, IsKept, Array.getD_eq_getD_getElem?]
  refine ⟨?_, ?_⟩
  · intro h
    rcases h with ⟨hlt, hs⟩
    rw [Array.getElem?_eq_getElem hlt, Option.getD_some] at hs
    obtain ⟨node, hn⟩ := Option.isSome_iff_exists.1 hs
    exact ⟨node, by rw [Array.getElem?_eq_getElem hlt, hn]⟩
  · intro h
    rcases h with ⟨node, hn⟩
    rw [hn]
    exact ⟨(Array.getElem?_eq_some_iff.1 hn).1, rfl⟩

theorem pairwise_survivors (kept : Array (Option EmittedNode)) :
    (survivors kept).Pairwise (· < ·) :=
  List.pairwise_lt_range.filter _

theorem nodup_survivors (kept : Array (Option EmittedNode)) : (survivors kept).Nodup :=
  (pairwise_survivors kept).imp Nat.ne_of_lt

theorem lt_of_mem_survivors {kept : Array (Option EmittedNode)} {i : Nat} (h : i ∈ survivors kept) :
    i < kept.size := by
  obtain ⟨node, hn⟩ := mem_survivors.1 h
  exact (Array.getElem?_eq_some_iff.1 hn).1

theorem length_survivors (kept : Array (Option EmittedNode)) :
    (survivors kept).length = kept.countP Option.isSome := by
  have hlist : kept.toList = (List.range kept.size).map fun i => kept.getD i none := by
    refine List.ext_getElem (by simp) fun i hi _ => ?_
    simp at hi
    simp [hi]
  rw [survivors, ← List.countP_eq_length_filter, ← Array.countP_toList, hlist, List.countP_map]
  rfl

namespace Front

theorem release_of_degree {f : Front} {i n : Nat} (h : f.degrees[i]? = some (n + 1)) :
    ∃ f', f.release i = .ok f' ∧
      (∀ j : Nat, f'.degrees[j]? = if j = i then some n else f.degrees[j]?) ∧
      ∀ j, j ∈ f'.ready ↔ j ∈ f.ready ∨ j = i ∧ n = 0 := by
  obtain ⟨hlt, hd⟩ := Array.getElem?_eq_some_iff.1 h
  have hset : ∀ v j : Nat, (f.degrees.set i v)[j]? = if j = i then some v else f.degrees[j]? := by
    intro v j
    rw [Array.getElem?_set hlt]
    simp [eq_comm]
  cases n with
  | zero =>
    refine ⟨⟨f.degrees.set i 0, f.ready.insert i⟩, ?_, hset 0, fun j => ?_⟩
    · rw [release, dif_pos hlt]
      split <;> simp_all
    · rw [Std.TreeSet.mem_insert, Std.compare_eq_iff_eq]
      simp [eq_comm, or_comm]
  | succ n =>
    refine ⟨⟨f.degrees.set i (n + 1), f.ready⟩, ?_, hset (n + 1), fun j => by simp⟩
    rw [release, dif_pos hlt]
    split <;> simp_all

/-- Releasing a list of nodes takes one from the degree of each; those that waited for one node only
become ready. -/
theorem releaseAll_of_degree {is : List Nat} {f : Front} (hnd : is.Nodup)
    (hpos : ∀ i ∈ is, ∃ n, f.degrees[i]? = some (n + 1)) :
    ∃ f', is.foldlM release f = .ok f' ∧
      (∀ j n : Nat, f.degrees[j]? = some n → f'.degrees[j]? = some (if j ∈ is then n - 1 else n)) ∧
      ∀ j, j ∈ f'.ready ↔ j ∈ f.ready ∨ j ∈ is ∧ f.degrees[j]? = some 1 := by
  induction is generalizing f with
  | nil => exact ⟨f, rfl, by simp, by simp⟩
  | cons i is ih =>
    obtain ⟨hi, hnd⟩ := List.nodup_cons.1 hnd
    obtain ⟨n, hn⟩ := hpos i List.mem_cons_self
    obtain ⟨f₁, hrel, hdeg₁, hready₁⟩ := release_of_degree hn
    have hother : ∀ j ∈ is, f₁.degrees[j]? = f.degrees[j]? := by
      intro j hj
      rw [hdeg₁, if_neg fun heq : j = i => hi (heq ▸ hj)]
    obtain ⟨f₂, hfold, hdeg₂, hready₂⟩ := ih hnd fun j hj => by
      rw [hother j hj]
      exact hpos j (List.mem_cons_of_mem _ hj)
    refine ⟨f₂, ?_, fun j m hm => ?_, fun j => ?_⟩
    · rw [List.foldlM_cons, hrel]
      exact hfold
    · by_cases hj : j = i
      · subst hj
        rw [hn] at hm
        cases hm
        rw [hdeg₂ j n (by rw [hdeg₁, if_pos rfl])]
        simp [hi]
      · rw [hdeg₂ j m (by rw [hdeg₁, if_neg hj, hm])]
        simp [hj]
    · rw [hready₂, hready₁, List.mem_cons]
      by_cases hj : j = i
      · subst hj
        simp [hi, hn]
      · by_cases hjs : j ∈ is
        · simp [hj, hjs, hother j hjs]
        · simp [hj, hjs]

/-- What the front holds once `emitted` is emitted. -/
structure Holds (kept : Array (Option EmittedNode)) (dependents : Array (List Nat))
    (emitted : List Nat) (f : Front) : Prop where
  degree : ∀ i < kept.size, f.degrees[i]? = some (blockers dependents emitted i).card
  ready : ∀ i, i ∈ f.ready ↔ IsKept kept i ∧ i ∉ emitted ∧ blockers dependents emitted i = ∅

variable {kept : Array (Option EmittedNode)} {l : Links} {f : Front} {emitted rest : List Nat} {u : Nat}

theorem blockers_snoc (dependents : Array (List Nat)) (i : Nat) :
    blockers dependents (emitted ++ [u]) i = (blockers dependents emitted i).erase u := by
  ext d
  rw [Finset.mem_erase, mem_blockers, mem_blockers, List.mem_append, List.mem_singleton]
  tauto

/-- The next survivor is the smallest ready node. -/
theorem Holds.min?_eq (h : f.Holds kept l.dependents emitted) (hl : l.Sound kept)
    (hs : survivors kept = emitted ++ u :: rest) : f.ready.min? = some u := by
  have hsorted := pairwise_survivors kept
  rw [hs, List.pairwise_append, List.pairwise_cons] at hsorted
  obtain ⟨-, ⟨hrest, -⟩, hemitted⟩ := hsorted
  have hmem : ∀ i, IsKept kept i → i ∉ emitted → i = u ∨ i ∈ rest := by
    intro i hk hi
    rw [← mem_survivors, hs, List.mem_append, List.mem_cons] at hk
    exact hk.resolve_left hi
  have huk : IsKept kept u := by
    rw [← mem_survivors, hs]
    simp
  rw [Std.TreeSet.min?_eq_some_iff_mem_and_forall, h.ready]
  refine ⟨⟨huk, fun hu => ?_, Finset.eq_empty_of_forall_notMem fun d hd => ?_⟩, fun i hi => ?_⟩
  · exact Nat.lt_irrefl u (hemitted u hu u List.mem_cons_self)
  · obtain ⟨hd, hwait⟩ := mem_blockers.1 hd
    obtain ⟨hlt, -, hdk, -⟩ := hl.forward d u hwait
    rcases hmem d hdk hd with rfl | hr
    · exact Nat.lt_irrefl d hlt
    · exact Nat.lt_irrefl d (Nat.lt_trans hlt (hrest d hr))
  · obtain ⟨hk, hi, -⟩ := (h.ready i).1 hi
    rw [Nat.isLE_compare]
    rcases hmem i hk hi with rfl | hr
    · exact Nat.le_refl i
    · exact Nat.le_of_lt (hrest i hr)

/-- Emitting `u` frees the nodes that waited for `u` alone. -/
theorem Holds.erase_eq_empty_iff (h : f.Holds kept l.dependents emitted) (hue : u ∉ emitted) {i : Nat}
    (hi : i < kept.size) :
    (blockers l.dependents emitted i).erase u = ∅ ↔
      blockers l.dependents emitted i = ∅ ∨ i ∈ waiting l.dependents u ∧ f.degrees[i]? = some 1 := by
  have hblocks : u ∈ blockers l.dependents emitted i ↔ i ∈ waiting l.dependents u :=
    mem_blockers.trans (and_iff_right hue)
  by_cases hw : i ∈ waiting l.dependents u
  · have hmem := hblocks.2 hw
    have hpos := Finset.card_pos.2 ⟨u, hmem⟩
    rw [h.degree i hi, Option.some.injEq, ← Finset.card_eq_zero, Finset.card_erase_of_mem hmem,
      ← Finset.card_eq_zero]
    simp only [hw, true_and]
    omega
  · rw [Finset.erase_eq_of_notMem fun hu => hw (hblocks.1 hu)]
    simp only [hw, false_and, or_false]

theorem Holds.release (h : f.Holds kept l.dependents emitted) (hl : l.Sound kept)
    (hs : survivors kept = emitted ++ u :: rest) :
    ∃ f', (waiting l.dependents u).foldlM Front.release (f.erase u) = .ok f' ∧
      f'.Holds kept l.dependents (emitted ++ [u]) := by
  have hsorted := pairwise_survivors kept
  rw [hs, List.pairwise_append] at hsorted
  have hbefore : ∀ i ∈ emitted, i < u := fun i hi => hsorted.2.2 i hi u List.mem_cons_self
  have hue : u ∉ emitted := fun hu => Nat.lt_irrefl u (hbefore u hu)
  have hblocks : ∀ i, u ∈ blockers l.dependents emitted i ↔ i ∈ waiting l.dependents u :=
    fun i => mem_blockers.trans (and_iff_right hue)
  have hsize : ∀ {i}, IsKept kept i → i < kept.size := fun ⟨_, hn⟩ =>
    (Array.getElem?_eq_some_iff.1 hn).1
  have hdeg : ∀ i < kept.size,
      (f.erase u).degrees[i]? = some (blockers l.dependents emitted i).card := h.degree
  obtain ⟨f', hfold, hdeg', hready'⟩ := releaseAll_of_degree (f := f.erase u) (hl.nodup u)
    fun i hi => by
      obtain ⟨-, -, -, hk⟩ := hl.forward u i hi
      have hpos := Finset.card_pos.2 ⟨u, (hblocks i).2 hi⟩
      exact ⟨_, by rw [hdeg i (hsize hk), Nat.sub_add_cancel hpos]⟩
  refine ⟨f', hfold, fun i hi => ?_, fun i => ?_⟩
  · rw [hdeg' i _ (hdeg i hi), blockers_snoc]
    by_cases hw : i ∈ waiting l.dependents u
    · rw [if_pos hw, Finset.card_erase_of_mem ((hblocks i).2 hw)]
    · rw [if_neg hw, Finset.erase_eq_of_notMem fun hu => hw ((hblocks i).1 hu)]
  · have herase : i ∈ (f.erase u).ready ↔ i ≠ u ∧ i ∈ f.ready := by
      rw [Front.erase, Std.TreeSet.mem_erase, ne_eq, Std.compare_eq_iff_eq, eq_comm]
    have hlater : i ∈ waiting l.dependents u → i ≠ u ∧ i ∉ emitted ∧ IsKept kept i := fun hw => by
      obtain ⟨hlt, -, -, hk⟩ := hl.forward u i hw
      exact ⟨Nat.ne_of_gt hlt, fun hi => Nat.lt_asymm hlt (hbefore i hi), hk⟩
    have hsame : (f.erase u).degrees = f.degrees := rfl
    rw [hready', herase, h.ready, blockers_snoc, List.mem_append, List.mem_singleton, hsame]
    by_cases hk : IsKept kept i
    · rw [h.erase_eq_empty_iff hue (hsize hk)]
      by_cases hw : i ∈ waiting l.dependents u
      · obtain ⟨hiu, hie, -⟩ := hlater hw
        simp [hk, hw, hiu, hie]
      · simp only [hk, hw, true_and, false_and, or_false, not_or, ne_eq]
        rw [and_assoc, and_left_comm]
    · have hw : i ∉ waiting l.dependents u := fun hw => hk (hlater hw).2.2
      simp [hk, hw]

/-- Once all survivors are emitted, nothing is ready. -/
theorem Holds.min?_eq_none (h : f.Holds kept l.dependents emitted) (hs : survivors kept = emitted) :
    f.ready.min? = none := by
  rw [Std.TreeSet.min?_eq_none_iff, Std.TreeSet.isEmpty_iff_forall_not_mem]
  intro i hi
  obtain ⟨hk, hi, -⟩ := (h.ready i).1 hi
  rw [← mem_survivors, hs] at hk
  exact hi hk

/-- By induction on the survivors that are left. -/
theorem Holds.drain (h : f.Holds kept l.dependents emitted) (hl : l.Sound kept)
    (hs : survivors kept = emitted ++ rest) :
    ∃ f', Front.drain l.dependents f emitted.toArray = .ok ((survivors kept).toArray, f') := by
  induction rest generalizing emitted f with
  | nil =>
    rw [List.append_nil] at hs
    have hnone := h.min?_eq_none hs
    refine ⟨f, ?_⟩
    rw [Front.drain]
    split
    · rw [hs]
    · simp_all
  | cons u rest ih =>
    have hmin := h.min?_eq hl hs
    obtain ⟨f', hfold, h'⟩ := h.release hl hs
    obtain ⟨f'', hdrain⟩ := ih h' (by rw [hs, List.append_assoc, List.singleton_append])
    obtain ⟨node, hn⟩ : IsKept kept u := by
      rw [← mem_survivors, hs]
      simp
    have hu : u < l.dependents.size := hl.size ▸ (Array.getElem?_eq_some_iff.1 hn).1
    have hget : l.dependents[u]? = some (waiting l.dependents u) := by
      simp [waiting, hu]
    refine ⟨f'', ?_⟩
    rw [← hdrain, Front.drain]
    split
    · simp_all
    · next i hi =>
      obtain rfl : u = i := Option.some.inj (hmin.symm.trans hi)
      rw [hget]
      dsimp only
      split
      · simp_all
      · next f₁ hf₁ =>
        obtain rfl : f' = f₁ := Except.ok.inj (hfold.symm.trans hf₁)
        rw [List.push_toArray]

end Front

/-- The heap, the degrees and the chain of effects together come to nothing but the order of discovery. -/
theorem sortKept_eq {kept : Array (Option EmittedNode)} (h : ReadsKept kept) :
    sortKept kept = .ok (survivors kept).toArray := by
  obtain ⟨l, hl, hsound, hsize⟩ := Links.sound_ofKept h
  have hstart : (l.front kept).Holds kept l.dependents [] := by
    refine ⟨fun i hi => hsound.degree i (by omega), fun i => ?_⟩
    rw [Links.front, Std.TreeSet.mem_ofList, List.contains_iff_mem, List.mem_filter, List.mem_range,
      ← mem_survivors, survivors, List.mem_filter, List.mem_range, Bool.and_eq_true, beq_iff_eq]
    have hdeg : i < kept.size → l.degrees.getD i 0 = (blockers l.dependents [] i).card := by
      intro hi
      rw [Array.getD_eq_getD_getElem?, hsound.degree i (by omega), Option.getD_some]
    refine ⟨?_, ?_⟩
    · intro h'
      rcases h' with ⟨hi, hk, hd⟩
      exact ⟨⟨hi, hk⟩, List.not_mem_nil, Finset.card_eq_zero.1 (by rw [← hdeg hi, hd])⟩
    · intro h'
      rcases h' with ⟨⟨hi, hk⟩, -, hd⟩
      exact ⟨hi, hk, by rw [hdeg hi, hd, Finset.card_empty]⟩
  obtain ⟨f, hdrain⟩ := hstart.drain hsound (List.nil_append _).symm
  have hlen : (survivors kept).toArray.size = kept.countP Option.isSome := by
    rw [List.size_toArray, length_survivors]
  simp only [sortKept, hl, hdrain, Except.mapError, bind, Except.bind]
  rw [if_pos hlen]
  rfl

end SoundGraph
