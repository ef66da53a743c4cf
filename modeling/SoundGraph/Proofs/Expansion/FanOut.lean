import SoundGraph.Proofs.Expansion.Arguments
import SoundGraph.Proofs.Expansion.Composed
import SoundGraph.Proofs.Expansion.Emission

/-! The instances of one call. They are emitted channel by channel, those of one channel before those of the
next, so the table lists them in the order of their paths. What a stretch of the table holds, `Emits`, goes
together with what the next stretch holds when the paths of the next come later. -/

namespace SoundGraph

open Expanding Expansion

/-- From `x` to `x'` instances are emitted, each at the end of its path, in the order of the paths and of the
places listed, and nothing else than the converters that they read. -/
structure Emits (d : Descriptor) (rule : RateRule) (feeds : List Nat → List (List Signal))
    (x x' : Expansion) (entries : List (List Nat × Nat)) : Prop where
  within : x.Within x'
  ordered : entries.Pairwise fun e e' => e.1 < e'.1 ∧ e.2 < e'.2
  instances : ∀ e ∈ entries, x.nodes.size ≤ e.2 ∧
    ∃ node, x'.nodes[e.2]? = some node ∧ x'.IsInstance x.nodes.size d rule (feeds e.1) node
  others : ∀ j, x.nodes.size ≤ j → j < x'.nodes.size → (∃ e ∈ entries, e.2 = j) ∨
    ∃ e ∈ entries, ∃ node, x'.nodes[e.2]? = some node ∧ x'.Converts j node.inputs

section Emits

variable {d : Descriptor} {rule : RateRule} {feeds : List Nat → List (List Signal)} {x x₁ x' : Expansion}
  {entries entries' : List (List Nat × Nat)}

theorem Emits.nil : Emits d rule feeds x x [] :=
  ⟨.refl x, .nil, List.forall_mem_nil _, fun _ hle hlt => absurd hlt (Nat.not_lt_of_le hle)⟩

theorem Emits.append (h : Emits d rule feeds x x₁ entries) (h' : Emits d rule feeds x₁ x' entries')
    (hpaths : ∀ e ∈ entries, ∀ e' ∈ entries', e.1 < e'.1) : Emits d rule feeds x x' (entries ++ entries') := by
  have hle := h.within.size_le
  refine ⟨h.within.trans h'.within, List.pairwise_append.2 ⟨h.ordered, h'.ordered, ?_⟩, ?_, ?_⟩
  · intro e he e' he'
    obtain ⟨-, node, hnode, -⟩ := h.instances e he
    -- the places of the second stretch are past the table that the first one leaves
    have hlt := (Array.getElem?_eq_some_iff.1 hnode).1
    exact ⟨hpaths e he e' he', Nat.lt_of_lt_of_le hlt (h'.instances e' he').1⟩
  · intro e he
    rcases List.mem_append.1 he with he | he
    · obtain ⟨hfresh, node, hnode, hinst⟩ := h.instances e he
      exact ⟨hfresh, node, getElem?_mono h'.within.nodes hnode, hinst.within h'.within (Nat.le_refl _)⟩
    · obtain ⟨hfresh, node, hnode, hinst⟩ := h'.instances e he
      exact ⟨Nat.le_trans hle hfresh, node, hnode, hinst.within (.refl x') hle⟩
  · intro j hj hlt
    simp only [List.mem_append]
    rcases Nat.lt_or_ge j x₁.nodes.size with hj' | hj'
    · rcases h.others j hj hj' with ⟨e, he, heq⟩ | ⟨e, he, node, hnode, hconv⟩
      · exact .inl ⟨e, .inl he, heq⟩
      · exact .inr ⟨e, .inl he, node, getElem?_mono h'.within.nodes hnode,
          hconv.within h'.within (List.Subset.refl _)⟩
    · rcases h'.others j hj' hlt with ⟨e, he, heq⟩ | ⟨e, he, node, hnode, hconv⟩
      · exact .inl ⟨e, .inr he, heq⟩
      · exact .inr ⟨e, .inr he, node, hnode, hconv⟩

/-- Inside channel `i` a path lacks the number of the channel. -/
theorem Emits.inside {i : Nat} (h : Emits d rule (fun p => feeds (i :: p)) x x' entries) :
    Emits d rule feeds x x' (entries.map fun e => (i :: e.1, e.2)) := by
  refine ⟨h.within, List.pairwise_map.2 (h.ordered.imp fun hlt => ?_), ?_, fun j hj hlt => ?_⟩
  · exact ⟨List.cons_lt_cons_iff.2 (.inr ⟨rfl, hlt.1⟩), hlt.2⟩
  · exact List.forall_mem_map.2 h.instances
  · rcases h.others j hj hlt with ⟨e, he, heq⟩ | ⟨e, he, node, hnode, hconv⟩
    · exact .inl ⟨_, List.mem_map_of_mem he, heq⟩
    · exact .inr ⟨_, List.mem_map_of_mem he, node, hnode, hconv⟩

end Emits

/-- The call answers with a tree of instances, its arguments spread over each other. -/
def Spreads (d : Descriptor) (rule : RateRule) (args : List Signal) (x : Expansion) (result : Signal)
    (x' : Expansion) : Prop :=
  ∃ t : Fan Nat, t.shape = broadcast (singles d.inputs args) ∧
    result = t.graft (fun i => .ofOutputs i (d.outputCount (feedCounts d.inputs args))) ∧
    Emits d rule (feed d.inputs args) x x' t.entries

section FanOut

variable {limit : Nat} {d : Descriptor} {rule : RateRule} {args : List Signal} {x x' : Expansion}
  {result : Signal}

theorem spreads_emit (hlen : args.length = d.inputs.length) (hwidth : d.fanWidth rule 0 d.inputs args = .ok 0)
    (h : emit limit d rule args x = .ok result x') : Spreads d rule args x result x' := by
  obtain ⟨hwidest, -⟩ := widest_of_fanWidth hwidth
  have hfeed := feed_of_fanWidth hlen hwidth
  have hcounts : args.map (·.leaves.length) = feedCounts d.inputs args := by
    rw [← length_feed d.inputs args [], hfeed, List.map_map]
    rfl
  obtain ⟨i, node, hresult, hlast, hw, hstands⟩ := stands_emit h
  rw [← hfeed] at hstands
  refine ⟨.one i, by rw [broadcast_of_eq hwidest]; rfl, by rw [hresult, hcounts]; rfl, hw,
    List.pairwise_singleton _ _,
    List.forall_mem_singleton.2 ⟨hstands.inputs.le, node, hstands.place, hstands.isInstance⟩,
    fun j hj hlt => ?_⟩
  rcases Nat.lt_or_eq_of_le (Nat.le_of_lt_succ (hlast ▸ hlt)) with hlt | rfl
  · exact .inr ⟨_, List.mem_singleton_self _, node, hstands.place, hstands.inputs.converts hj hlt⟩
  · exact .inl ⟨_, List.mem_singleton_self _, rfl⟩

/-- Channel after channel, each with the arguments stripped for it. -/
theorem spreads_channels {channel : Nat → Expanding Signal}
    (hchannel : ∀ i x s x', channel i x = .ok s x' → Spreads d rule (strip i d.inputs args) x s x')
    {k n : Nat} {channels : List Signal} (h : (List.range' k n).mapM channel x = .ok channels x') :
    ∃ ts : List (Fan Nat),
      ts.map Fan.shape = (List.range' k n).map (fun i => broadcast (layer i (singles d.inputs args))) ∧
      channels = ts.map (Fan.graft fun i => .ofOutputs i (d.outputCount (feedCounts d.inputs args))) ∧
      Emits d rule (feed d.inputs args) x x' (Fan.under k (ts.map Fan.entries)) := by
  induction n generalizing k x channels with
  | zero =>
    cases h
    exact ⟨[], rfl, rfl, .nil⟩
  | succ n ih =>
    rw [List.range'_succ] at h
    obtain ⟨s, rest, x₁, hs, hrest, rfl⟩ := run_mapM_cons_eq_ok_iff.1 h
    obtain ⟨t, hshape, hresult, hemits⟩ := hchannel k x s x₁ hs
    obtain ⟨ts, hshapes, hresults, hemits'⟩ := ih hrest
    rw [singles_strip] at hshape
    rw [feedCounts_strip] at hresult
    refine ⟨t :: ts, ?_, ?_, ?_⟩
    · rw [List.map_cons, List.range'_succ, List.map_cons, hshape, hshapes]
    · rw [List.map_cons, ← hresult, ← hresults]
    · have hfeed : feed d.inputs (strip k d.inputs args) = fun p => feed d.inputs args (k :: p) :=
        funext (feed_strip k d.inputs args)
      rw [hfeed] at hemits
      -- paths through channel `k` come before those through a later one
      rw [List.map_cons, Fan.under_cons]
      refine hemits.inside.append hemits' fun e he e' he' => ?_
      obtain ⟨e, -, rfl⟩ := List.mem_map.1 he
      obtain ⟨i, p, hlt, heq⟩ := Fan.exists_of_mem_under he'
      rw [heq]
      exact List.cons_lt_cons_iff.2 (.inl hlt)

/-- What holds of the call that is one instance, and of a call when it holds of its channels, holds of every call
that succeeds. By induction on the bundle layers that are left. -/
theorem fanOut_induction {P : List Signal → Expansion → Signal → Expansion → Prop}
    (hone : ∀ {args x result x'}, args.length = d.inputs.length → d.fanWidth rule 0 d.inputs args = .ok 0 →
      emit limit d rule args x = .ok result x' → P args x result x')
    (hmany : ∀ {args w x channels x'}, d.fanWidth rule 0 d.inputs args = .ok (w + 1) →
      (∀ i x s x', fanOutAt limit d rule args i x = .ok s x' → P (strip i d.inputs args) x s x') →
      (List.range' 0 (w + 1)).mapM (fanOutAt limit d rule args) x = .ok channels x' →
      P args x (.bundle channels) x')
    (hlen : args.length = d.inputs.length) (h : fanOut limit d rule args x = .ok result x') :
    P args x result x' := by
  induction hn : fanDepth d.inputs args using Nat.strongRecOn generalizing args x result x' with
  | ind n ih =>
    cases hwidth : d.fanWidth rule 0 d.inputs args with
    | error e =>
      rw [fanOut_of_error hwidth] at h
      cases h
    | ok w =>
      cases w with
      | zero =>
        rw [fanOut_of_zero hwidth] at h
        exact hone hlen hwidth h
      | succ w =>
        rw [fanOut_of_succ hwidth, run_bind_eq_ok_iff] at h
        obtain ⟨channels, x₁, hchannels, h⟩ := h
        cases h
        rw [List.range_eq_range'] at hchannels
        refine hmany hwidth (fun i x s x' hs => ?_) hchannels
        rw [fanOutAt_eq hwidth] at hs
        exact ih _ (hn ▸ fanDepth_strip_lt hwidth i) (length_strip i hlen) hs rfl

theorem spreads_fanOut (hlen : args.length = d.inputs.length)
    (h : fanOut limit d rule args x = .ok result x') : Spreads d rule args x result x' := by
  refine fanOut_induction spreads_emit (fun {args w} _ _ _ hwidth hchannel hchannels => ?_) hlen h
  obtain ⟨hwidest, -⟩ := widest_of_fanWidth hwidth
  obtain ⟨ts, hshapes, rfl, hemits⟩ := spreads_channels hchannel hchannels
  refine ⟨.many ts, ?_, (Fan.fold_many _ _ ts).symm, ?_⟩
  · rw [broadcast_of_ne (by omega), hwidest, List.range_eq_range', ← hshapes]
    exact Fan.fold_many _ _ ts
  · rw [Fan.entries, Fan.fold_many]
    exact hemits

/-- Of two places in a table filled in order, the one at the smaller path comes first. -/
theorem Emits.place_lt {feeds : List Nat → List (List Signal)} {entries : List (List Nat × Nat)}
    (h : Emits d rule feeds x x' entries) {p q : List Nat} {i j : Nat} (hp : (p, i) ∈ entries)
    (hq : (q, j) ∈ entries) (hlt : p < q) : i < j := by
  obtain ⟨m, hm, hpm⟩ := List.getElem_of_mem hp
  obtain ⟨n, hn, hqn⟩ := List.getElem_of_mem hq
  have hordered := List.pairwise_iff_getElem.1 h.ordered
  rcases Nat.lt_trichotomy m n with hmn | rfl | hnm
  · have := (hordered m n hm hn hmn).2
    rwa [hpm, hqn] at this
  · rw [hpm] at hqn
    cases hqn
    exact absurd hlt (List.lt_irrefl p)
  · have := (hordered n m hn hm hnm).1
    rw [hpm, hqn] at this
    exact absurd hlt (List.lt_asymm this)

/-- A call that succeeds answers with the tree over which its single-channel arguments are broadcast, the
outputs of one instance at the end of each maximal path. The instance is given the leaf that the path leads to,
or all leaves on a variadic input, and runs at the fixed rate or at that of the first leaf on the input to
follow. The instances come in the order of their paths, with nothing else than the converters that they read,
and no leaf of a single-channel argument is left out. -/
theorem instantiate_broadcast (h : instantiate limit d rule args x = .ok result x') :
    args.length = d.inputs.length ∧ x.Within x' ∧ ∃ t : Fan Nat,
      t.shape = broadcast (singles d.inputs args) ∧
      result = t.graft (fun i => .ofOutputs i (d.outputCount (feedCounts d.inputs args))) ∧
      (∀ p i, t.at? p = some i → x.nodes.size ≤ i ∧
        ∃ node, x'.nodes[i]? = some node ∧ x'.IsInstance x.nodes.size d rule (feed d.inputs args p) node) ∧
      (∀ p q i j, t.at? p = some i → t.at? q = some j → p < q → i < j) ∧
      (∀ j, x.nodes.size ≤ j → j < x'.nodes.size → (∃ p, t.at? p = some j) ∨
        ∃ p i node, t.at? p = some i ∧ x'.nodes[i]? = some node ∧ x'.Converts j node.inputs) ∧
      ∀ arg ∈ singles d.inputs args, ∀ q leaf, arg.leafAt? q = some leaf →
        ∃ p i, t.at? p = some i ∧ q <+: p ∧ arg.follow p = leaf := by
  unfold instantiate at h
  split at h
  · next hlen =>
    obtain ⟨t, hshape, hresult, hemits⟩ := spreads_fanOut hlen h
    refine ⟨hlen, hemits.within, t, hshape, hresult, fun p i hp => ?_, fun p q i j hp hq hlt => ?_,
      fun j hj hlt => ?_, fun arg harg q leaf hq => ?_⟩
    · exact hemits.instances _ (Fan.mem_entries_iff.2 hp)
    · exact hemits.place_lt (Fan.mem_entries_iff.2 hp) (Fan.mem_entries_iff.2 hq) hlt
    · rcases hemits.others j hj hlt with ⟨⟨p, i⟩, he, rfl⟩ | ⟨⟨p, i⟩, he, node, hnode, hconv⟩
      · exact .inl ⟨p, Fan.mem_entries_iff.1 he⟩
      · exact .inr ⟨p, i, node, Fan.mem_entries_iff.1 he, hnode, hconv⟩
    · obtain ⟨p, hp, hpre, hleaf⟩ := exists_path_to_leaf harg hq
      rw [← hshape, Fan.at?_shape] at hp
      obtain ⟨i, hi, -⟩ := Option.map_eq_some_iff.1 hp
      exact ⟨p, i, hi, hpre, hleaf⟩
  · cases h

end FanOut

def panner : Descriptor :=
  { name := "Pan"
    rate := .follow 0
    inputs := [⟨"in", .any, false⟩, ⟨"pos", .exactly .audio, false⟩, ⟨"taps", .any, true⟩]
    outputs := .perChannel 2 }

def noises : Expansion :=
  ⟨#[⟨"WhiteNoise", .audio, [], #[.audio], {}⟩, ⟨"LFNoise", .control, [], #[.control], {}⟩], .empty⟩

def pannerArgs : List Signal :=
  [.bundle [.out ⟨0, 0⟩, .const .zero],
    .bundle [.bundle [.out ⟨0, 0⟩, .out ⟨1, 0⟩, .const .zero], .const .zero, .out ⟨1, 0⟩],
    .bundle [.out ⟨1, 0⟩, .bundle [.const .zero]]]

theorem instantiate_broadcast_panner :
    ∃ result x', instantiate 9 panner (.follow 0) pannerArgs noises = .ok result x' ∧
      (x'.nodes.toList.drop 2).map (fun node => (node.name, node.rate)) =
        [("Pan", .audio), ("K2A", .audio), ("Pan", .audio), ("Pan", .audio), ("Pan", .control),
          ("K2A", .audio), ("Pan", .audio)] ∧
      ∃ t : Fan Nat, t.shape = .many [.many [.one (), .one (), .one ()], .one (), .one ()] ∧
        result = t.graft fun i => .ofOutputs i 2 := by
  have hemitted : (match instantiate 9 panner (.follow 0) pannerArgs noises with
      | .ok _ x => (x.nodes.toList.drop 2).map fun node => (node.name, node.rate)
      | .error _ _ => []) = [("Pan", .audio), ("K2A", .audio), ("Pan", .audio), ("Pan", .audio),
        ("Pan", .control), ("K2A", .audio), ("Pan", .audio)] := by decide +kernel
  have hshape : broadcast (singles panner.inputs pannerArgs) =
      .many [.many [.one (), .one (), .one ()], .one (), .one ()] := by cbv
  cases hx : instantiate 9 panner (.follow 0) pannerArgs noises with
  | ok result x' =>
    rw [hx] at hemitted
    obtain ⟨-, -, t, ht, hresult, -⟩ := instantiate_broadcast hx
    exact ⟨result, x', rfl, hemitted, t, ht.trans hshape, hresult⟩
  | error e x' =>
    rw [hx] at hemitted
    cases hemitted

end SoundGraph
