import SoundGraph.Compile
import SoundGraph.Proofs.Schedule.Renumbered

/-! Ordering keeps the meaning of a table. The place of a node is the position, among the kept nodes, of
the one that stands for it; read with these places, the ordered table says of every node what the old
one said. -/

namespace SoundGraph

namespace Merge

variable {m : Merge} {nodes : List EmittedNode}

theorem Covers.isKept_stand (h : m.Covers nodes) {i : Nat} (hi : i < nodes.length) :
    IsKept m.kept (m.stand i) :=
  ⟨_, h.kept_stand i nodes[i] (List.getElem?_eq_getElem hi)⟩

/-- A kept node is a node of the table, its sources replaced. -/
theorem Covers.source (h : m.Covers nodes) {i : Nat} {n' : EmittedNode}
    (hk : m.kept[i]? = some (some n')) :
    ∃ n, nodes[i]? = some n ∧ n' = n.redirect m.stand := by
  have hi : i < nodes.length := by
    rw [← h.size_kept]
    exact (Array.getElem?_eq_some_iff.1 hk).1
  have hn := List.getElem?_eq_getElem hi
  have hs := h.kept_stand i nodes[i] hn
  rw [h.stand_kept i n' hk, hk] at hs
  exact ⟨nodes[i], hn, Option.some.inj (Option.some.inj hs)⟩

/-- The stand-in of an impure node carries its flags, so it stands for no other node. -/
theorem Covers.stand_inj_of_impure (h : m.Covers nodes) {i j : Nat} {n : EmittedNode}
    (hn : nodes[i]? = some n) (himp : n.flags.pure = false) (hj : j < nodes.length)
    (heq : m.stand j = m.stand i) : j = i := by
  have hnj := List.getElem?_eq_getElem hj
  have hki := h.kept_stand i n hn
  have hkj := h.kept_stand j nodes[j] hnj
  rw [heq, hki] at hkj
  have hsame : n.redirect m.stand = nodes[j].redirect m.stand := Option.some.inj (Option.some.inj hkj)
  have himp' : (nodes[j].redirect m.stand).flags.pure = false := hsame ▸ himp
  rw [← h.stand_impure i n hn himp, ← heq, h.stand_impure j nodes[j] hnj himp']

/-- An impure node that reads nothing is kept as it is. -/
theorem Covers.kept_of_impure (h : m.Covers nodes) {i : Nat} {n : EmittedNode} (hn : nodes[i]? = some n)
    (himp : n.flags.pure = false) (hinputs : n.inputs = []) : m.kept[i]? = some (some n) := by
  have hstand := h.kept_stand i n hn
  have hsame : n.redirect m.stand = n := by rw [EmittedNode.redirect, hinputs, List.map_nil, ← hinputs]
  rwa [h.stand_impure i n hn himp, hsame] at hstand

theorem Covers.readsKept (h : m.Covers nodes)
    (hback : ∀ (i : Nat) n, nodes[i]? = some n → ∀ j, n.Reads j → j < i) : ReadsKept m.kept := by
  rintro i n' hk j ⟨output, hj⟩
  obtain ⟨n, hn, rfl⟩ := h.source hk
  obtain ⟨input, hin, heq⟩ := List.mem_map.1 hj
  cases input with
  | constant index => cases heq
  | node source =>
    cases heq
    have hlt := hback i n hn source.node ⟨source.output, hin⟩
    have hi := (List.getElem?_eq_some_iff.1 hn).1
    have hle := h.stand_le source.node (by omega)
    exact ⟨by omega, h.isKept_stand (by omega)⟩

end Merge

/-- Positions in an ascending list ascend. -/
theorem idxOf_lt_idxOf {l : List Nat} (hl : l.Pairwise (· < ·)) {a b : Nat} (ha : a ∈ l) (hb : b ∈ l)
    (hlt : a < b) : l.idxOf a < l.idxOf b := by
  have hia := List.idxOf_lt_length_of_mem ha
  have hib := List.idxOf_lt_length_of_mem hb
  have hga : l[l.idxOf a] = a := List.getElem_idxOf hia
  have hgb : l[l.idxOf b] = b := List.getElem_idxOf hib
  rcases Nat.lt_trichotomy (l.idxOf a) (l.idxOf b) with h | h | h
  · exact h
  · simp only [h] at hga
    omega
  · have := List.pairwise_iff_getElem.1 hl _ _ hib hia h
    omega

/-- `out` with `pool` says of every node of the old table, in its new place, what the old table says. -/
structure Simulation (place : Nat → Nat) (nodes : Array EmittedNode) (constants : Array Sample)
    (out : List EmittedNode) (pool : Array Sample) : Prop where
  onto : ∀ k < out.length, ∃ i < nodes.size, place i = k
  same : ∀ (i : Nat) n, nodes[i]? = some n →
    ∃ n', out[place i]? = some n' ∧ SameNode place constants pool n n'
  alone : ∀ (i : Nat) n, nodes[i]? = some n → n.flags.pure = false →
    ∀ j < nodes.size, place j = place i → j = i
  earlier : ∀ (i : Nat) n, nodes[i]? = some n → ∀ j, n.Reads j → place j < place i

theorem Backward.reads_lt {nodes : Array EmittedNode} {constants : Array Sample}
    (h : Backward constants nodes) {i : Nat} {n : EmittedNode} (hn : nodes.toList[i]? = some n) :
    ∀ j, n.Reads j → j < i := by
  rw [Array.getElem?_toList] at hn
  exact fun _ ⟨_, hj⟩ => h i n hn _ hj

/-- The constants that kept nodes read are those that the table reads. -/
theorem Backward.constant_lt {nodes : Array EmittedNode} {constants : Array Sample}
    (h : Backward constants nodes) {m : Merge} (hcov : m.Covers nodes.toList) {i : Nat} {n : EmittedNode}
    (hk : m.kept[i]? = some (some n)) : ∀ c, .constant c ∈ n.inputs → c < constants.size := by
  intro c hc
  obtain ⟨n, hn, rfl⟩ := hcov.source hk
  rw [Array.getElem?_toList] at hn
  obtain ⟨input, hin, heq⟩ := List.mem_map.1 hc
  cases input with
  | constant index =>
    cases heq
    exact h i n hn _ hin
  | node source => cases heq

/-- The place of a node: the position of its stand-in among the kept nodes. -/
def Merge.position (m : Merge) (i : Nat) : Nat := (survivors m.kept).idxOf (m.stand i)

theorem Merge.Covers.stand_mem {m : Merge} {nodes : Array EmittedNode} (h : m.Covers nodes.toList) {i : Nat}
    (hi : i < nodes.size) : m.stand i ∈ survivors m.kept :=
  mem_survivors.2 (h.isKept_stand (by rwa [Array.length_toList]))

theorem Merge.Covers.simulation {m : Merge} {nodes : Array EmittedNode} {constants pool : Array Sample}
    {out : List EmittedNode} (h : m.Covers nodes.toList) (hback : Backward constants nodes)
    (hout : List.Forall₂ (fun i n' => ∃ n, m.kept[i]? = some (some n) ∧
      SameNode (survivors m.kept).idxOf constants pool n n') (survivors m.kept) out) :
    Simulation m.position nodes constants out pool := by
  have hmem : ∀ i < nodes.size, m.stand i ∈ survivors m.kept := fun _ hi => h.stand_mem hi
  have hlt : ∀ {i : Nat} {n}, nodes[i]? = some n → i < nodes.size := fun hn =>
    (Array.getElem?_eq_some_iff.1 hn).1
  refine ⟨fun k hk => ?_, fun i n hn => ?_, fun i n hn himp j hj heq => ?_, fun i n hn j hj => ?_⟩
  · rw [← hout.length_eq] at hk
    obtain ⟨n', hn'⟩ := mem_survivors.1 (List.getElem_mem hk)
    obtain ⟨n, hn, -⟩ := h.source hn'
    rw [Array.getElem?_toList] at hn
    refine ⟨(survivors m.kept)[k], hlt hn, ?_⟩
    rw [Merge.position, h.stand_kept _ n' hn', (nodup_survivors _).idxOf_getElem]
  · have hk := List.idxOf_lt_length_of_mem (hmem i (hlt hn))
    have hk' := hk
    rw [hout.length_eq] at hk'
    obtain ⟨n₀, hkept, hn₀⟩ := hout.get hk hk'
    rw [← Array.getElem?_toList] at hn
    rw [List.get_eq_getElem, List.getElem_idxOf hk, h.kept_stand i n hn] at hkept
    cases hkept
    exact ⟨_, List.getElem?_eq_getElem hk', hn₀.of_redirect⟩
  · rw [Merge.position, Merge.position, List.idxOf_inj (hmem j hj)] at heq
    rw [← Array.getElem?_toList] at hn
    exact h.stand_inj_of_impure hn himp (by rwa [Array.length_toList]) heq
  · have hi := hlt hn
    rw [← Array.getElem?_toList] at hn
    have hji := hback.reads_lt hn j hj
    have hread := h.readsKept (fun _ _ hn => hback.reads_lt hn)
    obtain ⟨output, hin⟩ := hj
    have hstand := hread _ _ (h.kept_stand i n hn) (m.stand j) ⟨output, List.mem_map.2 ⟨_, hin, rfl⟩⟩
    exact idxOf_lt_idxOf (pairwise_survivors _) (hmem j (by omega)) (hmem i hi) hstand.1

/-- Ordering is merging, then renumbering of the nodes that were kept: the sort finds them in order. -/
theorem order_eq {nodes : Array EmittedNode} {constants : Array Sample} (h : Backward constants nodes) :
    order nodes constants = (Merge.ofNodes nodes.toList).mapError .fault >>= fun m =>
      (renumber m.kept constants (survivors m.kept).toArray).mapError .fault := by
  obtain ⟨m, hm, hcov⟩ := Merge.covers_ofNodes fun _ _ hn => h.reads_lt hn
  have hread := hcov.readsKept fun _ _ hn => h.reads_lt hn
  simp only [order, hm, sortKept_eq hread, Except.mapError, bind, Except.bind]

theorem order_slotted {nodes : Array EmittedNode} {constants : Array Sample} {m : Merge}
    (h : Backward constants nodes) (hm : Merge.ofNodes nodes.toList = .ok m) (hcov : m.Covers nodes.toList) :
    ∃ out u, order nodes constants = .ok (out, u.pool) ∧ u.Holds constants ∧
      List.Forall₂ (fun i n' => ∃ n, m.kept[i]? = some (some n) ∧
        SlottedNode (survivors m.kept).idxOf u n n') (survivors m.kept) out := by
  have hread := hcov.readsKept fun _ _ hn => h.reads_lt hn
  obtain ⟨out, u, hren, hu, hout⟩ := renumber_survivors hread fun _ _ hk => h.constant_lt hcov hk
  refine ⟨out, u, ?_, hu, hout⟩
  simp only [order_eq h, hm, hren, Except.mapError, bind, Except.bind]

theorem simulation_order {nodes : Array EmittedNode} {constants : Array Sample}
    (h : Backward constants nodes) :
    ∃ place out pool, order nodes constants = .ok (out, pool) ∧
      Simulation place nodes constants out pool := by
  obtain ⟨m, hm, hcov⟩ := Merge.covers_ofNodes fun _ _ hn => h.reads_lt hn
  obtain ⟨out, u, hok, hu, hout⟩ := order_slotted h hm hcov
  exact ⟨_, out, u.pool, hok, hcov.simulation h (hout.imp fun _ _ ⟨n, hn, hs⟩ => ⟨n, hn, hu.sameNode hs⟩)⟩

/-- Ordering succeeds and loses nothing: the nodes are mapped onto the ordered ones, each to a node with
the same name, rate, outputs and flags that reads the same values and the images of the same nodes. A
node with an effect or with state of its own shares its image with no other. -/
theorem order_preserves_table {nodes : Array EmittedNode} {constants : Array Sample}
    (h : Backward constants nodes) :
    ∃ out pool, order nodes constants = .ok (out, pool) ∧
      ∃ place : Nat → Nat,
        (∀ k < out.length, ∃ i < nodes.size, place i = k) ∧
        (∀ (i : Nat) n, nodes[i]? = some n → ∃ n', out[place i]? = some n' ∧
          n'.name = n.name ∧ n'.rate = n.rate ∧ n'.outputs = n.outputs ∧ n'.flags = n.flags ∧
          List.Forall₂ (SameInput place constants pool) n.inputs n'.inputs) ∧
        ∀ (i : Nat) n, nodes[i]? = some n → n.flags.sideEffect = true ∨ n.flags.individual = true →
          ∀ j < nodes.size, place j = place i → j = i := by
  obtain ⟨place, out, pool, hok, hsim⟩ := simulation_order h
  refine ⟨out, pool, hok, place, hsim.onto, fun i n hn => ?_, fun i n hn himp => ?_⟩
  · obtain ⟨n', hn', hs⟩ := hsim.same i n hn
    exact ⟨n', hn', hs.name, hs.rate, hs.outputs, hs.flags, hs.inputs⟩
  · refine hsim.alone i n hn ?_
    rcases himp with himp | himp <;> simp [Flags.pure, himp]

def twinTable : Array EmittedNode :=
  let osc : EmittedNode := ⟨"SinOsc", .control, [.constant 1, .constant 0], #[.control], {}⟩
  let noise (i : Nat) : EmittedNode := ⟨"LFNoise0", .audio, [.node ⟨i, 0⟩], #[.audio], { individual := true }⟩
  #[osc, osc, noise 0, noise 1,
    ⟨"Out", .audio, [.constant 0, .node ⟨2, 0⟩, .node ⟨3, 0⟩], #[], { sideEffect := true }⟩]

/-- The noise sources come to read the same oscillator, and still none of them is merged. -/
theorem order_preserves_twins :
    Backward #[⟨0⟩, ⟨0x7FC00001⟩] twinTable ∧
      ∃ out pool, order twinTable #[⟨0⟩, ⟨0x7FC00001⟩] = .ok (out, pool) ∧
        ∃ i j : Nat, i ≠ j ∧ out[i]?.map EmittedNode.name = some "LFNoise0" ∧
          out[j]?.map EmittedNode.name = some "LFNoise0" := by
  have h : Backward #[⟨0⟩, ⟨0x7FC00001⟩] twinTable := by decide
  obtain ⟨out, pool, hok, place, -, hsame, halone⟩ := order_preserves_table h
  obtain ⟨n, hn, hname, -⟩ := hsame 2 _ rfl
  obtain ⟨n', hn', hname', -⟩ := hsame 3 _ rfl
  refine ⟨h, out, pool, hok, place 2, place 3, fun heq => ?_, ?_, ?_⟩
  · have := halone 3 _ rfl (.inr rfl) 2 (by decide) heq
    contradiction
  · rw [hn, Option.map_some, hname]
    rfl
  · rw [hn', Option.map_some, hname']
    rfl

end SoundGraph
