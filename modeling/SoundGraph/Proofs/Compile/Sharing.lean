import SoundGraph.Proofs.Compile.Order

/-! Merging is exact. Unfold each node into a term, down to constants and to impure nodes, which are known
by their index alone: two nodes come to the same place exactly if their terms are equal. One pass in the
order of discovery is enough, because the sources of a node have their stand-ins before the node is read. -/

namespace SoundGraph

/-- What a node computes, its sources unfolded. -/
inductive Term where
  /-- An impure node. -/
  | atom (index : Nat)
  | constant (index : Nat)
  | slot (source : Term) (output : Nat)
  | apply (name : String) (rate : Rate) (inputs : List Term) (outputs : Array Rate) (flags : Flags)

def Input.term (t : Nat → Term) : Input → Term
  | .constant index => .constant index
  | .node source => .slot (t source.node) source.output

/-- The term of node `i`; a source that does not come before its reader is left an atom. -/
def term (nodes : Array EmittedNode) (i : Nat) : Term :=
  match nodes[i]? with
  | none => .atom i
  | some n =>
    if n.flags.pure then
      .apply n.name n.rate (n.inputs.map (Input.term fun j => if j < i then term nodes j else .atom j))
        n.outputs n.flags
    else .atom i
termination_by i

def ReadsBack (nodes : Array EmittedNode) : Prop :=
  ∀ (i : Nat) n, nodes[i]? = some n → ∀ j, n.Reads j → j < i

variable {nodes : Array EmittedNode} {i j : Nat} {n : EmittedNode}

theorem Backward.readsBack {constants : Array Sample} (h : Backward constants nodes) : ReadsBack nodes :=
  fun _ _ hn => h.reads_lt (by rwa [Array.getElem?_toList])

theorem ReadsBack.reads_lt (h : ReadsBack nodes) (hn : nodes.toList[i]? = some n) :
    ∀ j, n.Reads j → j < i := by
  rw [Array.getElem?_toList] at hn
  exact h i n hn

theorem term_of_impure (hn : nodes[i]? = some n) (himp : n.flags.pure = false) :
    term nodes i = .atom i := by
  rw [term, hn]
  simp [himp]

theorem term_of_pure (h : ReadsBack nodes) (hn : nodes[i]? = some n) (hp : n.flags.pure = true) :
    term nodes i =
      .apply n.name n.rate (n.inputs.map (Input.term (term nodes))) n.outputs n.flags := by
  rw [term, hn]
  simp only [hp, if_true]
  congr 1
  refine List.map_congr_left fun input hin => ?_
  cases input with
  | constant index => rfl
  | node source => rw [Input.term, Input.term, if_pos (h i n hn source.node ⟨source.output, hin⟩)]

theorem map_eq_map_iff_of_forall {α β γ : Type} {f g : α → β} {f' g' : α → γ} {as bs : List α}
    (h : ∀ a ∈ as, ∀ b ∈ bs, f a = g b ↔ f' a = g' b) : as.map f = bs.map g ↔ as.map f' = bs.map g' := by
  induction as generalizing bs with
  | nil => simp
  | cons a as ih =>
    cases bs with
    | nil => simp
    | cons b bs =>
      have hhead := h a List.mem_cons_self b List.mem_cons_self
      have htail := ih fun a ha b hb => h a (List.mem_cons_of_mem _ ha) b (List.mem_cons_of_mem _ hb)
      simp only [List.map_cons, List.cons.injEq, hhead, htail]

namespace Merge

variable {m : Merge}

/-- Two kept pure nodes differ. -/
theorem Covers.kept_inj {nodes : List EmittedNode} (h : m.Covers nodes) (hp : n.flags.pure = true)
    (hi : m.kept[i]? = some (some n)) (hj : m.kept[j]? = some (some n)) : i = j := by
  have hseen := (h.seen_iff n i).2 ⟨hp, hi⟩
  rw [(h.seen_iff n j).2 ⟨hp, hj⟩] at hseen
  exact (Option.some.inj hseen).symm

/-- A pure node is merged with the pure nodes that are the same once redirected. -/
theorem Covers.stand_eq_iff_redirect {nodes : List EmittedNode} (h : m.Covers nodes) {n' : EmittedNode}
    (hn : nodes[i]? = some n) (hn' : nodes[j]? = some n') (hp : n.flags.pure = true) :
    m.stand i = m.stand j ↔ n.redirect m.stand = n'.redirect m.stand := by
  have hi := h.kept_stand i n hn
  have hj := h.kept_stand j n' hn'
  refine ⟨fun heq => ?_, fun heq => ?_⟩
  · rw [heq, hj] at hi
    exact (Option.some.inj (Option.some.inj hi)).symm
  · rw [← heq] at hj
    exact h.kept_inj (n := n.redirect m.stand) hp hi hj

/-- By induction on the first node: its sources come before it. -/
theorem Covers.stand_eq_iff_term_eq (h : m.Covers nodes.toList) (hback : ReadsBack nodes)
    (hi : i < nodes.size) (hj : j < nodes.size) :
    m.stand i = m.stand j ↔ term nodes i = term nodes j := by
  induction i using Nat.strongRecOn generalizing j with
  | ind i ih =>
    obtain ⟨n, hn⟩ : ∃ n, nodes[i]? = some n := ⟨_, Array.getElem?_eq_getElem hi⟩
    obtain ⟨n', hn'⟩ : ∃ n', nodes[j]? = some n' := ⟨_, Array.getElem?_eq_getElem hj⟩
    have hli : nodes.toList[i]? = some n := by rwa [Array.getElem?_toList]
    have hlj : nodes.toList[j]? = some n' := by rwa [Array.getElem?_toList]
    cases hp : n.flags.pure with
    | false =>
      rw [term_of_impure hn hp]
      refine ⟨fun heq => ?_, fun heq => ?_⟩
      · obtain rfl := h.stand_inj_of_impure hli hp (by rwa [Array.length_toList]) heq.symm
        rw [term_of_impure hn hp]
      · cases hp' : n'.flags.pure with
        | false =>
          rw [term_of_impure hn' hp'] at heq
          cases heq
          rfl
        | true =>
          rw [term_of_pure hback hn' hp'] at heq
          cases heq
    | true =>
      have hin : n.inputs.map (Input.redirect m.stand) = n'.inputs.map (Input.redirect m.stand) ↔
          n.inputs.map (Input.term (term nodes)) = n'.inputs.map (Input.term (term nodes)) := by
        refine map_eq_map_iff_of_forall fun input hmem input' hmem' => ?_
        cases input with
        | constant index => cases input' <;> simp [Input.redirect, Input.term]
        | node source =>
          cases input' with
          | constant index => simp [Input.redirect, Input.term]
          | node source' =>
            have hlt := hback i n hn source.node ⟨source.output, hmem⟩
            have hlt' := hback j n' hn' source'.node ⟨source'.output, hmem'⟩
            have hsrc := ih source.node hlt (by omega) (j := source'.node) (by omega)
            simp [Input.redirect, Input.term, hsrc]
      rw [h.stand_eq_iff_redirect hli hlj hp, term_of_pure hback hn hp]
      cases hp' : n'.flags.pure with
      | false =>
        rw [term_of_impure hn' hp']
        refine ⟨fun heq => ?_, fun heq => by cases heq⟩
        have hflags : (n.redirect m.stand).flags = (n'.redirect m.stand).flags := by rw [heq]
        change n.flags = n'.flags at hflags
        rw [hflags, hp'] at hp
        cases hp
      | true =>
        rw [term_of_pure hback hn' hp', Term.apply.injEq, ← hin]
        simp only [EmittedNode.redirect, EmittedNode.mk.injEq]

end Merge

/-- The place to which ordering brings each node: the position of its stand-in among the sorted nodes. -/
def placements (nodes : Array EmittedNode) : Except Abort (Array Nat) := do
  let merge ← (Merge.ofNodes nodes.toList).mapError .fault
  let sorted ← sortKept merge.kept
  return merge.canonical.map fun i => (positions merge.kept.size sorted).getD i 0

theorem placements_eq (h : ReadsBack nodes) :
    ∃ m places, Merge.ofNodes nodes.toList = .ok m ∧ m.Covers nodes.toList ∧
      placements nodes = .ok places ∧ ∀ i < nodes.size, places[i]? = some (m.position i) := by
  obtain ⟨m, hm, hcov⟩ := Merge.covers_ofNodes fun _ _ hn => h.reads_lt hn
  have hread := hcov.readsKept fun _ _ hn => h.reads_lt hn
  have hsize : m.canonical.size = nodes.size := by rw [hcov.size_canonical, Array.length_toList]
  let places := m.canonical.map fun i => (positions m.kept.size (survivors m.kept).toArray).getD i 0
  refine ⟨m, places, hm, hcov, ?_, fun i hi => ?_⟩
  · simp only [placements, hm, sortKept_eq hread, Except.mapError, bind, Except.bind]
    rfl
  · have hget : m.canonical[i]? = some (m.stand i) := by
      rw [Merge.stand, Array.getD_eq_getD_getElem?, Array.getElem?_eq_getElem (by omega)]
      rfl
    rw [Array.getElem?_map, hget, Option.map_some, Array.getD_eq_getD_getElem?,
      getElem?_positions (hcov.stand_mem hi)]
    rfl

def Input.SourceIn (l : List Nat) (input : Input) : Prop := ∀ source, input = .node source → source.node ∈ l

/-- Inputs that become the same were the same: neither a place nor a slot is given twice. -/
theorem leftUnique_slotted {l : List Nat} {constants : Array Sample} {u : FirstUse}
    (hu : u.Holds constants) :
    Relator.LeftUnique fun a c : Input => a.SourceIn l ∧ Slotted l.idxOf u a c := by
  rintro a b c ⟨hmem, ha⟩ ⟨-, hb⟩
  cases a with
  | constant index =>
    obtain ⟨k, hk, rfl⟩ := slotted_constant_iff.1 ha
    cases b with
    | constant index' =>
      obtain ⟨k', hk', heq⟩ := slotted_constant_iff.1 hb
      cases heq
      rw [hu.distinct index index' k hk hk']
    | node source => cases slotted_node_iff.1 hb
  | node source =>
    obtain rfl := slotted_node_iff.1 ha
    cases b with
    | constant index =>
      obtain ⟨k, -, heq⟩ := slotted_constant_iff.1 hb
      cases heq
    | node source' =>
      obtain ⟨hplace, hout⟩ := OutputRef.mk.inj (Input.node.inj (slotted_node_iff.1 hb))
      have hnode := (List.idxOf_inj (hmem source rfl)).1 hplace
      cases source
      cases source'
      cases hnode
      cases hout
      rfl

theorem leftUnique_slottedNode {kept : Array (Option EmittedNode)} {constants : Array Sample}
    {u : FirstUse} (hu : u.Holds constants) (hread : ReadsKept kept) :
    Relator.LeftUnique fun n n' => (∃ i : Nat, kept[i]? = some (some n)) ∧
      SlottedNode (survivors kept).idxOf u n n' := by
  have hmem : ∀ {i : Nat} {n}, kept[i]? = some (some n) → ∀ input ∈ n.inputs,
      input.SourceIn (survivors kept) := by
    rintro i n hk input hin source rfl
    exact mem_survivors.2 (hread i n hk source.node ⟨source.output, hin⟩).2
  rintro a b c ⟨⟨i, hi⟩, inputs, rfl, ha⟩ ⟨⟨j, hj⟩, inputs', heq, hb⟩
  obtain ⟨hname, hrate, rfl, houtputs, hflags⟩ := EmittedNode.mk.inj heq
  have hinputs : a.inputs = b.inputs := (leftUnique_slotted hu).forall₂
    ((List.forall₂_and_left _ _).2 ⟨hmem hi, ha⟩) ((List.forall₂_and_left _ _).2 ⟨hmem hj, hb⟩)
  cases a
  cases b
  cases hname
  cases hrate
  cases hinputs
  cases houtputs
  cases hflags
  rfl

/-- No two pure nodes of an ordered table are the same. -/
theorem Merge.Covers.pure_distinct {m : Merge} {constants : Array Sample} {out : List EmittedNode}
    {u : FirstUse} (h : m.Covers nodes.toList) (hread : ReadsKept m.kept) (hu : u.Holds constants)
    (hout : List.Forall₂ (fun i n' => ∃ n, m.kept[i]? = some (some n) ∧
      SlottedNode (survivors m.kept).idxOf u n n') (survivors m.kept) out)
    {k l : Nat} (hk : out[k]? = some n) (hl : out[l]? = some n) (hp : n.flags.pure = true) : k = l := by
  have hsource : ∀ {k : Nat}, out[k]? = some n → ∃ hlt : k < (survivors m.kept).length,
      ∃ a, m.kept[(survivors m.kept)[k]]? = some (some a) ∧
        SlottedNode (survivors m.kept).idxOf u a n := by
    intro k hk
    obtain ⟨hlt, rfl⟩ := List.getElem?_eq_some_iff.1 hk
    have hlt' : k < (survivors m.kept).length := by rwa [hout.length_eq]
    exact ⟨hlt', hout.get hlt' hlt⟩
  obtain ⟨hkl, a, hka, ha⟩ := hsource hk
  obtain ⟨hll, b, hlb, hb⟩ := hsource hl
  obtain rfl := leftUnique_slottedNode hu hread ⟨⟨_, hka⟩, ha⟩ ⟨⟨_, hlb⟩, hb⟩
  have hpa : a.flags.pure = true := by
    obtain ⟨inputs, rfl, -⟩ := ha
    exact hp
  exact (nodup_survivors m.kept).getElem_inj_iff.1 (h.kept_inj hpa hka hlb)

/-- Two nodes are brought to the same place exactly if they unfold to the same term, however far down
they agree, and an impure node is never brought together with another. Among the ordered nodes no two
pure ones are the same. -/
theorem place_eq_iff_term_eq (h : ReadsBack nodes) :
    ∃ places, placements nodes = .ok places ∧ ∃ place : Nat → Nat,
      (∀ i < nodes.size, places[i]? = some (place i)) ∧
      (∀ i < nodes.size, ∀ j < nodes.size, place i = place j ↔ term nodes i = term nodes j) ∧
      ∀ constants : Array Sample,
        (∀ n ∈ nodes.toList, ∀ c, .constant c ∈ n.inputs → c < constants.size) →
        ∃ out pool, order nodes constants = .ok (out, pool) ∧
          Simulation place nodes constants out pool ∧
          ∀ (k l : Nat) n, out[k]? = some n → out[l]? = some n → n.flags.pure = true → k = l := by
  obtain ⟨m, places, hm, hcov, hplaces, hget⟩ := placements_eq h
  refine ⟨places, hplaces, m.position, hget, fun i hi j hj => ?_, fun constants hconst => ?_⟩
  · rw [Merge.position, Merge.position, List.idxOf_inj (hcov.stand_mem hi),
      hcov.stand_eq_iff_term_eq h hi hj]
  · have hback : Backward constants nodes := by
      intro i n hn input hin
      cases input with
      | constant c => exact hconst n (Array.mem_toList_iff.2 (Array.mem_of_getElem? hn)) c hin
      | node source => exact h i n hn source.node ⟨source.output, hin⟩
    obtain ⟨out, u, hok, hu, hout⟩ := order_slotted hback hm hcov
    have hread := hcov.readsKept fun _ _ hn => hback.reads_lt hn
    refine ⟨out, u.pool, hok, hcov.simulation hback ?_, fun k l n hk hl hp =>
      hcov.pure_distinct hread hu hout hk hl hp⟩
    refine hout.imp ?_
    rintro s i ⟨n, hn, hs⟩
    exact ⟨n, hn, hu.sameNode hs⟩

def cascadeFilter (source : Nat) : EmittedNode :=
  ⟨"LPF", .control, [.node ⟨source, 0⟩, .constant 1], #[.control], {}⟩

def cascadeTable : Array EmittedNode :=
  let osc : EmittedNode := ⟨"SinOsc", .control, [.constant 0], #[.control], {}⟩
  let noise (source : Nat) : EmittedNode :=
    ⟨"LFNoise0", .control, [.node ⟨source, 0⟩], #[.control], { individual := true }⟩
  #[osc, osc, cascadeFilter 0, cascadeFilter 1, noise 2, noise 3]

/-- The filters are merged because the oscillators are; the noise sources are not. -/
theorem place_eq_in_cascade :
    ReadsBack cascadeTable ∧ ∃ places, placements cascadeTable = .ok places ∧
      places[2]? = places[3]? ∧ places[4]? ≠ places[5]? := by
  have hback : Backward #[⟨0⟩, ⟨0⟩] cascadeTable := by decide
  have h : ReadsBack cascadeTable := fun i n hn => hback.reads_lt (by rwa [Array.getElem?_toList])
  obtain ⟨places, hplaces, place, hget, hiff, -⟩ := place_eq_iff_term_eq h
  have hfilter : term cascadeTable 2 = term cascadeTable 3 := by
    have hosc : term cascadeTable 0 = term cascadeTable 1 := by
      rw [term_of_pure h rfl rfl, term_of_pure h rfl rfl]
      rfl
    rw [term_of_pure (n := cascadeFilter 0) h rfl rfl, term_of_pure (n := cascadeFilter 1) h rfl rfl]
    simp only [cascadeFilter, List.map_cons, Input.term, hosc]
  have hnoise : term cascadeTable 4 ≠ term cascadeTable 5 := by
    rw [term_of_impure rfl rfl, term_of_impure rfl rfl]
    exact fun heq => by cases heq
  refine ⟨h, places, hplaces, ?_, ?_⟩
  · rw [hget 2 (by decide), hget 3 (by decide), (hiff 2 (by decide) 3 (by decide)).2 hfilter]
  · rw [hget 4 (by decide), hget 5 (by decide)]
    exact fun heq => hnoise ((hiff 4 (by decide) 5 (by decide)).1 (Option.some.inj heq))

end SoundGraph
