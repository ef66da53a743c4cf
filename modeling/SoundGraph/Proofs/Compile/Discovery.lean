import SoundGraph.Proofs.Compile.Sharing

/-! Ordering keeps the order of discovery. A node survives merging if no node in front of it unfolds to
the same term; the survivors are sorted, ascending, and come out in just this order, whatever they read.
A node with an effect always survives, so the effects of the table happen in the order in which they were
discovered. -/

namespace SoundGraph

variable {nodes : Array EmittedNode} {i : Nat}

/-- No node in front of it unfolds to the same term. -/
structure Survives (nodes : Array EmittedNode) (i : Nat) : Prop where
  lt : i < nodes.size
  first : ∀ j < i, term nodes j ≠ term nodes i

theorem filterMap_range_getElem? {α : Type} (as : List α) :
    (List.range as.length).filterMap (as[·]?) = as := by
  induction as with
  | nil => rfl
  | cons a as ih =>
    rw [List.length_cons, List.range_succ_eq_map, List.filterMap_cons, List.filterMap_map]
    exact congrArg (a :: ·) ih

namespace Merge

variable {m : Merge}

theorem Covers.stand_eq_self_iff (h : m.Covers nodes.toList) (hi : i < nodes.size) :
    m.stand i = i ↔ IsKept m.kept i := by
  refine ⟨fun heq => ?_, fun ⟨n, hn⟩ => h.stand_kept i n hn⟩
  rw [← heq]
  exact h.isKept_stand (by rwa [Array.length_toList])

/-- The kept nodes are the first of their terms. -/
theorem Covers.isKept_iff (h : m.Covers nodes.toList) (hback : ReadsBack nodes) :
    IsKept m.kept i ↔ Survives nodes i := by
  have hle : ∀ j < nodes.size, m.stand j ≤ j := by simpa using h.stand_le
  refine ⟨fun hk => ?_, fun hs => ?_⟩
  · have hi : i < nodes.size := by
      have := lt_of_mem_survivors (mem_survivors.2 hk)
      rwa [h.size_kept, Array.length_toList] at this
    refine ⟨hi, fun j hj heq => ?_⟩
    have hstand := (h.stand_eq_iff_term_eq hback (hj.trans hi) hi).2 heq
    rw [(h.stand_eq_self_iff hi).2 hk] at hstand
    have := hle j (hj.trans hi)
    omega
  · rw [← h.stand_eq_self_iff hs.lt]
    by_contra hne
    have hlt : m.stand i < i := lt_of_le_of_ne (hle i hs.lt) hne
    have hidem : m.stand (m.stand i) = m.stand i :=
      (h.stand_eq_self_iff (hlt.trans hs.lt)).2 (h.isKept_stand (by simpa using hs.lt))
    exact hs.first _ hlt ((h.stand_eq_iff_term_eq hback (hlt.trans hs.lt) hs.lt).1 hidem)

/-- Impure nodes are all kept, so they are found among the survivors. -/
theorem Covers.filter_survivors (h : m.Covers nodes.toList) {p : EmittedNode → Bool}
    (hp : ∀ n, p n = true → n.flags.pure = false) :
    ((survivors m.kept).filterMap (nodes[·]?)).filter p = nodes.toList.filter p := by
  have hlist := filterMap_range_getElem? nodes.toList
  simp only [Array.length_toList, Array.getElem?_toList] at hlist
  rw [survivors, List.filterMap_filter, List.filter_filterMap, ← hlist, List.filter_filterMap,
    h.size_kept, Array.length_toList]
  refine List.filterMap_congr fun i hi => ?_
  obtain ⟨n, hn⟩ : ∃ n, nodes[i]? = some n := ⟨_, Array.getElem?_eq_getElem (List.mem_range.1 hi)⟩
  split
  · rfl
  · next hdropped =>
    cases hpn : p n with
    | false => rw [hn, Option.filter_some, hpn]; rfl
    | true =>
      have hself := h.stand_impure i n (by rwa [Array.getElem?_toList]) (hp n hpn)
      have hk := (h.stand_eq_self_iff (List.mem_range.1 hi)).1 hself
      rw [← mem_survivors, survivors, List.mem_filter] at hk
      exact absurd hk.2 hdropped

end Merge

theorem forall₂_filterMap {α β γ : Type} {f : α → Option β} {R : β → γ → Prop} {as : List α} {cs : List γ}
    (h : List.Forall₂ (fun a c => ∃ b, f a = some b ∧ R b c) as cs) :
    List.Forall₂ R (as.filterMap f) cs := by
  induction h with
  | nil => exact .nil
  | cons hac _ ih =>
    obtain ⟨b, hb, hbc⟩ := hac
    rw [List.filterMap_cons_some hb]
    exact .cons hbc ih

theorem forall₂_filter {α β : Type} {R : α → β → Prop} {p : α → Bool} {q : β → Bool} {as : List α} {bs : List β}
    (h : List.Forall₂ R as bs) (hpq : ∀ a b, R a b → p a = q b) :
    List.Forall₂ R (as.filter p) (bs.filter q) := by
  induction h with
  | nil => exact .nil
  | @cons a b _ _ hab _ ih =>
    rw [List.filter_cons, List.filter_cons, hpq a b hab]
    split
    · exact .cons hab ih
    · exact ih

theorem order_ne_rejected (h : ReadsBack nodes) (constants : Array Sample) (e : CompileError) :
    order nodes constants ≠ .error (.rejected e) := by
  obtain ⟨m, hm, hcov⟩ := Merge.covers_ofNodes fun _ _ hn => h.reads_lt hn
  have hread := hcov.readsKept fun _ _ hn => h.reads_lt hn
  simp only [order, hm, sortKept_eq hread, Except.mapError, bind, Except.bind]
  split <;> simp

/-- The sort with its heap, its degrees and its chain of effects never changes the order in which nodes
were discovered, and is never stuck: the survivors come out ascending, each with the same inputs in
their new places, and so do the nodes with an effect, all of them. -/
theorem order_keeps_discovery (h : ReadsBack nodes) :
    (∀ constants e, order nodes constants ≠ .error (.rejected e)) ∧
    ∃ m sorted, Merge.ofNodes nodes.toList = .ok m ∧ sortKept m.kept = .ok sorted ∧
      (∀ i, i ∈ sorted ↔ IsKept m.kept i) ∧ (∀ i, IsKept m.kept i ↔ Survives nodes i) ∧
      sorted.toList.Pairwise (· < ·) ∧
      ∀ constants, Backward constants nodes →
        ∃ place out pool, order nodes constants = .ok (out, pool) ∧
          Simulation place nodes constants out pool ∧
          (∀ (k : Nat) i, sorted[k]? = some i → place i = k) ∧
          List.Forall₂ (fun i n' => ∃ n, nodes[i]? = some n ∧ SameNode place constants pool n n')
            sorted.toList out ∧
          List.Forall₂ (SameNode place constants pool) (nodes.toList.filter (·.flags.sideEffect))
            (out.filter (·.flags.sideEffect)) := by
  obtain ⟨m, hm, hcov⟩ := Merge.covers_ofNodes fun _ _ hn => h.reads_lt hn
  have hread := hcov.readsKept fun _ _ hn => h.reads_lt hn
  refine ⟨order_ne_rejected h, m, _, hm, sortKept_eq hread, fun i => ?_, fun i => hcov.isKept_iff h,
    pairwise_survivors _, fun constants hback => ?_⟩
  · rw [List.mem_toArray, mem_survivors]
  obtain ⟨out, u, hok, hu, hslotted⟩ := order_slotted hback hm hcov
  have hsame : List.Forall₂ (fun i n' => ∃ n, nodes[i]? = some n ∧
      SameNode m.position constants u.pool n n') (survivors m.kept) out := by
    refine hslotted.imp fun i n' ⟨n, hn, hs⟩ => ?_
    obtain ⟨n, hget, rfl⟩ := hcov.source hn
    exact ⟨n, by rwa [Array.getElem?_toList] at hget, (hu.sameNode hs).of_redirect⟩
  refine ⟨m.position, out, u.pool, hok, hcov.simulation hback ?_, fun k i hi => ?_, hsame, ?_⟩
  · exact hslotted.imp fun _ _ ⟨n, hn, hs⟩ => ⟨n, hn, hu.sameNode hs⟩
  · rw [List.getElem?_toArray] at hi
    obtain ⟨hk, rfl⟩ := List.getElem?_eq_some_iff.1 hi
    obtain ⟨n, hn⟩ := mem_survivors.1 (List.getElem_mem hk)
    rw [Merge.position, hcov.stand_kept _ n hn, (nodup_survivors _).idxOf_getElem]
  · rw [← hcov.filter_survivors fun n hn => by simp [Flags.pure, hn]]
    exact forall₂_filter (forall₂_filterMap hsame) fun n n' hs => by rw [hs.flags]

def meterTable : Array EmittedNode :=
  let osc : EmittedNode := ⟨"SinOsc", .audio, [.constant 0], #[.audio], {}⟩
  let act (name : String) (source : Nat) : EmittedNode :=
    ⟨name, .audio, [.node ⟨source, 0⟩], #[], { sideEffect := true }⟩
  #[osc, act "Out" 0, ⟨"LFNoise0", .audio, [], #[.audio], { individual := true }⟩, act "SendReply" 2,
    osc, act "RecordBuf" 4]

/-- The second oscillator is merged into the first; that `RecordBuf` then waits for node 0 alone does not
bring it in front of the effects before it. -/
theorem order_keeps_meter :
    ReadsBack meterTable ∧ ∃ m sorted, Merge.ofNodes meterTable.toList = .ok m ∧
      sortKept m.kept = .ok sorted ∧ 4 ∉ sorted ∧
      ∃ out pool, order meterTable #[⟨0⟩] = .ok (out, pool) ∧
        (out.filter (·.flags.sideEffect)).map EmittedNode.name = ["Out", "SendReply", "RecordBuf"] := by
  have hback : Backward #[⟨0⟩] meterTable := by decide
  have h : ReadsBack meterTable := hback.readsBack
  have hosc : term meterTable 0 = term meterTable 4 := by
    rw [term_of_pure h rfl rfl, term_of_pure h rfl rfl]
    rfl
  obtain ⟨-, m, sorted, hm, hsort, hmem, hkept, -, hout⟩ := order_keeps_discovery h
  obtain ⟨place, out, pool, hok, -, -, -, heffects⟩ := hout _ hback
  refine ⟨h, m, sorted, hm, hsort, fun h4 => ?_, out, pool, hok, ?_⟩
  · exact ((hkept 4).1 ((hmem 4).1 h4)).first 0 (by decide) hosc
  · have hnames := List.forall₂_map_left_iff.2
      (List.forall₂_map_right_iff.2 (heffects.imp fun _ _ hs => hs.name.symm))
    exact (List.forall₂_eq_eq_eq ▸ hnames : _ = _).symm

end SoundGraph
