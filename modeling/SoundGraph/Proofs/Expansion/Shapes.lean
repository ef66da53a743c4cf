import SoundGraph.Proofs.Expansion.Hollow
import SoundGraph.Proofs.Expansion.Outlines
import SoundGraph.Proofs.Expansion.Threshold

/-! What comes out of a call. Its leaves are the outputs of its instances, instance after instance, and each
instance has as many as the descriptor says: a fixed number, or one for each leaf of a variadic input. An argument
of a variadic input counts for its leaves only, so bundles without channels in it change nothing. Where no other
argument lacks a channel and every leaf is there at a rate that can be had, nothing but the limit stops a call. -/

namespace SoundGraph

open Expanding

/-- Arguments that agree, on a variadic input in their leaves. -/
inductive SameLeaves : List InputDecl → List Signal → List Signal → Prop where
  | nil : SameLeaves [] [] []
  | cons {decl : InputDecl} {decls : List InputDecl} {arg arg' : Signal} {args args' : List Signal}
    (h : if decl.variadic then arg.leaves = arg'.leaves else arg = arg') (hrest : SameLeaves decls args args') :
    SameLeaves (decl :: decls) (arg :: args) (arg' :: args')

section SameLeaves

variable {limit : Nat} {d : Descriptor} {rule : RateRule} {decls : List InputDecl} {args args' : List Signal}

theorem SameLeaves.length_eq (h : SameLeaves decls args args') :
    args.length = decls.length ∧ args'.length = decls.length := by
  induction h with
  | nil => exact ⟨rfl, rfl⟩
  | cons h _ ih => exact ⟨congrArg Nat.succ ih.1, congrArg Nat.succ ih.2⟩

theorem SameLeaves.map_leaves (h : SameLeaves decls args args') :
    args.map Signal.leaves = args'.map Signal.leaves := by
  induction h with
  | nil => rfl
  | @cons decl decls arg arg' args args' h _ ih =>
    have hleaves : arg.leaves = arg'.leaves := by
      split at h
      · exact h
      · rw [h]
    rw [List.map_cons, List.map_cons, hleaves, ih]

theorem SameLeaves.strip (h : SameLeaves decls args args') (i : Nat) :
    SameLeaves decls (strip i decls args) (strip i decls args') := by
  induction h with
  | nil => exact .nil
  | @cons decl decls arg arg' args args' h _ ih =>
    refine .cons ?_ ih
    split at h
    · next hv => simpa [hv] using h
    · next hv => simp [hv, h]

theorem SameLeaves.fanWidth_eq (h : SameLeaves decls args args') (k : Nat) :
    d.fanWidth rule k decls args = d.fanWidth rule k decls args' := by
  induction h generalizing k with
  | nil => rfl
  | @cons decl decls arg arg' args args' h _ ih =>
    unfold Descriptor.fanWidth
    split at h
    · next hv => rw [if_pos hv, if_pos hv, ih]
    · next hv => rw [h, ih]

theorem resolveRate_congr (h : args.map Signal.leaves = args'.map Signal.leaves) (x : Expansion) :
    x.resolveRate d args rule = x.resolveRate d args' rule := by
  cases rule with
  | fixed r => rfl
  | follow k =>
    have hk : args[k]?.map Signal.leaves = args'[k]?.map Signal.leaves := by
      rw [← List.getElem?_map, h, List.getElem?_map]
    simp only [Expansion.resolveRate]
    cases harg : args[k]? with
    | none =>
      rw [harg, Option.map_none, eq_comm, Option.map_eq_none_iff] at hk
      simp only [hk]
    | some arg =>
      rw [harg, Option.map_some, eq_comm, Option.map_eq_some_iff] at hk
      obtain ⟨arg', harg', hleaves⟩ := hk
      simp only [harg', hleaves]

theorem connectAll_congr (h : args.map Signal.leaves = args'.map Signal.leaves) (rate : Rate) :
    connectAll limit d rate decls args = connectAll limit d rate decls args' := by
  induction decls generalizing args args' with
  | nil => cases args <;> cases args' <;> rfl
  | cons decl decls ih =>
    cases args with
    | nil =>
      rw [List.map_nil, eq_comm, List.map_eq_nil_iff] at h
      rw [h]
    | cons arg args =>
      cases args' with
      | nil => cases h
      | cons arg' args' =>
        rw [List.map_cons, List.map_cons, List.cons.injEq] at h
        rw [connectAll, connectAll, h.1, ih h.2]

theorem emit_congr (h : args.map Signal.leaves = args'.map Signal.leaves) :
    emit limit d rule args = emit limit d rule args' := by
  have hcounts : args.map (·.leaves.length) = args'.map (·.leaves.length) := by
    have := congrArg (List.map List.length) h
    rwa [List.map_map, List.map_map] at this
  have hrate : (fun x : Expansion => x.resolveRate d args rule) = fun x => x.resolveRate d args' rule :=
    funext (resolveRate_congr h)
  unfold emit
  rw [hrate, hcounts]
  simp only [connectAll_congr h]

/-- By induction on the bundle layers that are left. -/
theorem SameLeaves.fanOut_eq (h : SameLeaves d.inputs args args') :
    fanOut limit d rule args = fanOut limit d rule args' := by
  induction hn : fanDepth d.inputs args using Nat.strongRecOn generalizing args args' with
  | ind n ih =>
    have hwidth' : d.fanWidth rule 0 d.inputs args = d.fanWidth rule 0 d.inputs args' := h.fanWidth_eq 0
    cases hwidth : d.fanWidth rule 0 d.inputs args with
    | error e =>
      rw [fanOut_of_error hwidth, fanOut_of_error (hwidth' ▸ hwidth)]
    | ok w =>
      cases w with
      | zero => rw [fanOut_of_zero hwidth, fanOut_of_zero (hwidth' ▸ hwidth), emit_congr h.map_leaves]
      | succ w =>
        have hchannel : fanOutAt limit d rule args = fanOutAt limit d rule args' := by
          funext i
          rw [fanOutAt_eq hwidth, fanOutAt_eq (hwidth' ▸ hwidth)]
          exact ih _ (hn ▸ fanDepth_strip_lt hwidth i) (h.strip i) rfl
        rw [fanOut_of_succ hwidth, fanOut_of_succ (hwidth' ▸ hwidth), hchannel]

theorem SameLeaves.instantiate_eq (h : SameLeaves d.inputs args args') :
    instantiate limit d rule args = instantiate limit d rule args' := by
  rw [instantiate, if_pos h.length_eq.1, instantiate, if_pos h.length_eq.2, h.fanOut_eq]

end SameLeaves

section Suits

variable {limit : Nat} {d : Descriptor} {rule : RateRule} {args : List Signal} {x x' : Expansion}

/-- The leaves that an instance is given are there, none at a rate that its input cannot have. -/
def Expansion.Suits (x : Expansion) (d : Descriptor) (rule : RateRule) (feed : List (List Signal)) : Prop :=
  ∀ decl source, (decl, .out source) ∈ Expansion.ports d.inputs feed → ∃ actual, x.outputRate source = .ok actual ∧
    ∀ rate required, x.RatedAs feed rate rule → decl.requirement.required rate = some required →
      coercion actual required ≠ .impossible

/-- Where the leaves are there already, the rate is what it was. -/
theorem Expansion.Suits.ratedAs {feed : List (List Signal)} {rate : Rate} (h : x.Suits d rule feed)
    (hfollows : d.Follows rule) (hw : x.Within x') (hrate : x'.RatedAs feed rate rule) : x.RatedAs feed rate rule := by
  cases rule with
  | fixed r => exact hrate
  | follow k =>
    obtain ⟨leaf, rest, hfeed, hleaf⟩ := hrate
    refine ⟨leaf, rest, hfeed, ?_⟩
    cases hleaf with
    | const v => exact .const v
    | @out source _ hrate =>
      have hdecl := List.getElem?_eq_getElem (hfollows k rfl)
      obtain ⟨actual, hactual, -⟩ := h _ source (mem_ports hdecl hfeed List.mem_cons_self)
      obtain rfl := Except.ok.inj ((hw.outputRate hactual).symm.trans hrate)
      exact .out hactual

/-- Only for the limit is a call refused that is solid and suits. -/
theorem Refusal.ofLimit {e : CompileError} (h : Refusal limit d rule args x x' e) (hfollows : d.Follows rule)
    (hw : x.Within x') (hsolid : Solid d rule args)
    (hsuits : ∀ p ∈ callPaths d args, x.Suits d rule (feed d.inputs args p)) : e.ofLimit = true := by
  cases h with
  | emptyInput _ hdecl hsingle harg hhollow =>
    exact absurd hhollow (hsolid.singles _ (mem_singles_iff.2 ⟨_, _, hdecl, hsingle, harg⟩))
  | emptyPrimary _ hdecl hsingle harg hhollow =>
    exact absurd hhollow (hsolid.singles _ (mem_singles_iff.2 ⟨_, _, hdecl, hsingle, harg⟩))
  | leafless hrule hdecl _ harg hleaves => exact absurd hleaves (hsolid.primary _ _ _ hrule hdecl harg)
  | rateMismatch hpath hport hrate hactual hrequired himpossible =>
    obtain ⟨actual, hbefore, hcoerces⟩ := hsuits _ hpath _ _ hport
    obtain rfl := Except.ok.inj ((hw.outputRate hbefore).symm.trans hactual)
    exact absurd himpossible (hcoerces _ _ ((hsuits _ hpath).ratedAs hfollows hw hrate) hrequired)
  | invalidReference hpath hport hunknown =>
    obtain ⟨actual, hactual, -⟩ := hsuits _ hpath _ _ hport
    exact absurd hactual (hunknown actual)
  | tooManyNodes => rfl

/-- A call that is solid and suits comes to an answer, but for the limit. -/
theorem comesTo_of_suits (hlen : args.length = d.inputs.length) (hfollows : d.Follows rule)
    (hsolid : Solid d rule args) (hsuits : ∀ p ∈ callPaths d args, x.Suits d rule (feed d.inputs args p)) :
    ∃ result x', ComesTo (fun limit => instantiate limit d rule args) x (.ok result x') := by
  obtain ⟨r, hr⟩ := capped_instantiate d rule args x
  cases r with
  | ok result x' => exact ⟨result, x', hr⟩
  | error e x' =>
    have herror : fanOut x'.nodes.size d rule args x = .error e x' := by
      rw [← hr.fits x'.nodes.size (Nat.le_refl _), instantiate, if_pos hlen]
    obtain ⟨hw, err, rfl, hrefusal⟩ := (refusal_fanOut hfollows hlen x).of_error herror
    have hlimit := hrefusal.ofLimit hfollows hw hsolid hsuits
    rw [hr.other err x' rfl] at hlimit
    cases hlimit

end Suits

def OutputShape.Counts (args : List Signal) : OutputShape → Nat → Prop
  | fixed count, n => n = count
  | perChannel k, n => ∃ arg, args[k]? = some arg ∧ n = arg.leaves.length
  | zero, n => n = 0

/-- The call has emitted instances at the places listed, with `n` outputs each, and else only the converters that
they read; it answers with all their outputs, in order. -/
structure Returns (d : Descriptor) (rule : RateRule) (args : List Signal) (x : Expansion) (result : Signal)
    (x' : Expansion) (n : Nat) (places : List Nat) : Prop where
  ordered : places.Pairwise (· < ·)
  instances : ∀ i ∈ places, x.nodes.size ≤ i ∧ ∃ node p, x'.nodes[i]? = some node ∧
    x'.IsInstance x.nodes.size d rule (feed d.inputs args p) node ∧ node.outputs.size = n
  others : ∀ j, x.nodes.size ≤ j → j < x'.nodes.size → j ∈ places ∨
    ∃ i ∈ places, ∃ node, x'.nodes[i]? = some node ∧ x'.Converts j node.inputs
  leaves : result.leaves = places.flatMap fun i => (List.range n).map fun slot => .out ⟨i, slot⟩

section Returns

variable {limit : Nat} {d : Descriptor} {rule : RateRule} {args : List Signal} {x x' : Expansion} {result : Signal}

theorem Spreads.returns (h : Spreads d rule args x result x') :
    ∃ places, Returns d rule args x result x' (d.outputCount (feedCounts d.inputs args)) places := by
  obtain ⟨t, -, hresult, hemits⟩ := h
  refine ⟨t.entries.map Prod.snd, List.pairwise_map.2 (hemits.ordered.imp And.right), ?_, ?_, ?_⟩
  · intro i hi
    obtain ⟨⟨p, i⟩, he, rfl⟩ := List.mem_map.1 hi
    obtain ⟨hfresh, node, hnode, hinst⟩ := hemits.instances _ he
    refine ⟨hfresh, node, p, hnode, hinst, ?_⟩
    rw [hinst.outputs, length_feed, Array.size_replicate]
  · intro j hj hlt
    rcases hemits.others j hj hlt with ⟨e, he, heq⟩ | ⟨e, he, node, hnode, hconv⟩
    · exact .inl (heq ▸ List.mem_map_of_mem he)
    · exact .inr ⟨e.2, List.mem_map_of_mem he, node, hnode, hconv⟩
  · rw [hresult, Fan.leaves_graft, List.flatMap_map]
    exact List.flatMap_congr fun e _ => Signal.leaves_ofOutputs _ _

/-- Of a consistent descriptor an input that gives the outputs is there, and variadic. -/
theorem counts_of_check (hcheck : d.check = .ok ()) (hlen : args.length = d.inputs.length) :
    d.outputs.Counts args (d.outputCount (feedCounts d.inputs args)) := by
  have houtputs : d.checkOutputs = .ok () := by
    obtain ⟨_, -, h⟩ := bind_eq_ok_iff.1 hcheck
    obtain ⟨_, -, h⟩ := bind_eq_ok_iff.1 h
    exact h
  unfold Descriptor.checkOutputs at houtputs
  unfold Descriptor.outputCount
  cases hshape : d.outputs with
  | fixed count => rfl
  | zero => rfl
  | perChannel k =>
    rw [hshape] at houtputs
    cases hdecl : d.inputs[k]? with
    | none => simp [hdecl] at houtputs
    | some decl =>
      have hvariadic : decl.variadic = true := by simpa [hdecl] using houtputs
      have hk : k < args.length := hlen ▸ (List.getElem?_eq_some_iff.1 hdecl).1
      obtain ⟨arg, harg⟩ : ∃ arg, args[k]? = some arg := ⟨_, List.getElem?_eq_getElem hk⟩
      refine ⟨arg, harg, ?_⟩
      simp [feedCounts, List.getD, List.getElem?_zipWith, hdecl, harg, hvariadic]

theorem follows_of_check (hcheck : d.check = .ok ()) (hrule : rule = d.rate ∨ ∃ r, rule = .fixed r) :
    d.Follows rule := by
  intro k hk
  rcases hrule with rfl | ⟨r, rfl⟩
  · obtain ⟨_, -, h⟩ := bind_eq_ok_iff.1 hcheck
    obtain ⟨_, hrate, -⟩ := bind_eq_ok_iff.1 h
    simpa [Descriptor.checkRate, hk] using hrate
  · cases hk

/-- A hollow argument on a single-channel input is never accepted, and neither is a leafless one where a rate is
to be had from it; which error it is depends on the input and on the rate to follow, and every other error has its
cause in a leaf or in the limit. Bundles without channels on a variadic input make no difference: without such an
argument, and with leaves that are there and can be had at the rates required, a call comes to an answer under
every limit that leaves it room. It answers with all outputs of its instances, in order, and each has as many as
the descriptor says. -/
theorem instantiate_channels (hcheck : d.check = .ok ()) (hrule : rule = d.rate ∨ ∃ r, rule = .fixed r)
    (hlen : args.length = d.inputs.length) (limit : Nat) (x : Expansion) :
    ((∃ s ∈ singles d.inputs args, s.Hollow) ∨
        (∃ k arg, rule = .follow k ∧ args[k]? = some arg ∧ arg.leaves = []) →
      ∃ e x', instantiate limit d rule args x = .error (.rejected e) x') ∧
    (∀ e x', instantiate limit d rule args x = .error e x' →
      ∃ err, e = .rejected err ∧ Refusal limit d rule args x x' err) ∧
    (Solid d rule args → (∀ p ∈ callPaths d args, x.Suits d rule (feed d.inputs args p)) →
      ∃ result x', (∀ bound, x'.nodes.size ≤ bound → instantiate bound d rule args x = .ok result x') ∧
        ∀ bound, x.nodes.size ≤ bound → bound < x'.nodes.size →
          ∃ y, instantiate bound d rule args x = .error (.rejected (.tooManyNodes bound)) y) ∧
    (∀ args', SameLeaves d.inputs args args' →
      instantiate limit d rule args' x = instantiate limit d rule args x) ∧
    ∀ result x', instantiate limit d rule args x = .ok result x' →
      ∃ n places, d.outputs.Counts args n ∧ Returns d rule args x result x' n places := by
  have hfollows := follows_of_check hcheck hrule
  have hcall : instantiate limit d rule args = fanOut limit d rule args := if_pos hlen
  have hrefusal : ∀ e x', instantiate limit d rule args x = .error e x' →
      ∃ err, e = .rejected err ∧ Refusal limit d rule args x x' err := by
    intro e x' h
    rw [hcall] at h
    exact ((refusal_fanOut hfollows hlen x).of_error h).2
  refine ⟨fun hempty => ?_, hrefusal, fun hsolid hsuits => ?_, fun args' h => by rw [h.instantiate_eq],
    fun result x' h => ?_⟩
  · cases h : instantiate limit d rule args x with
    | error e x' =>
      obtain ⟨err, rfl, -⟩ := hrefusal e x' h
      exact ⟨err, x', rfl⟩
    | ok result x' =>
      rw [hcall] at h
      have hsolid := solid_fanOut hlen h
      rcases hempty with ⟨s, hs, hhollow⟩ | ⟨k, arg, hk, harg, hleaves⟩
      · exact absurd hhollow (hsolid.singles s hs)
      · exact absurd hleaves (hsolid.primary k _ arg hk (List.getElem?_eq_getElem (hfollows k hk)) harg)
  · obtain ⟨result, x', hcomes⟩ := comesTo_of_suits hlen hfollows hsolid hsuits
    exact ⟨result, x', hcomes.fits, hcomes.stops⟩
  · rw [hcall] at h
    obtain ⟨places, hreturns⟩ := (spreads_fanOut hlen h).returns
    exact ⟨_, places, counts_of_check hcheck hlen, hreturns⟩

end Returns

def hollowArgs : List Signal :=
  [.bundle [.out ⟨0, 0⟩, .bundle [.const .zero, .bundle []]], .const .zero, .out ⟨1, 0⟩]

def tappedArgs : List Signal := [.out ⟨0, 0⟩, .const .zero, .bundle [.out ⟨1, 0⟩, .bundle []]]

def untappedArgs : List Signal := [.out ⟨0, 0⟩, .const .zero, .bundle [.bundle []]]

theorem solid_untapped : Solid panner (.follow 0) untappedArgs := by
  refine ⟨?_, ?_⟩
  · rintro s hs hhollow
    have hs : s = .out ⟨0, 0⟩ ∨ s = .const .zero := by simpa [panner, untappedArgs, singles] using hs
    rcases hs with rfl | rfl <;> cases hhollow
  · rintro k decl arg hk - harg hleaves
    cases hk
    cases harg
    cases hleaves

theorem suits_untapped :
    ∀ p ∈ callPaths panner untappedArgs, noises.Suits panner (.follow 0) (feed panner.inputs untappedArgs p) := by
  have hwidth : panner.fanWidth (.follow 0) 0 panner.inputs untappedArgs = .ok 0 := rfl
  rw [callPaths_of_zero hwidth]
  refine List.forall_mem_singleton.2 fun decl source hport => ?_
  have hport : decl = ⟨"in", .any, false⟩ ∧ source = ⟨0, 0⟩ := by
    simpa [panner, untappedArgs, feed, Expansion.ports, Signal.follow, Signal.leaves, Signal.leavesOf] using hport
  obtain ⟨rfl, rfl⟩ := hport
  exact ⟨.audio, rfl, fun rate required _ hrequired => by cases hrequired⟩

theorem instantiate_channels_panner :
    panner.check = .ok () ∧
      (∃ e x', instantiate 9 panner (.follow 0) hollowArgs noises = .error (.rejected e) x') ∧
      (∃ bound result x', instantiate bound panner (.follow 0) untappedArgs noises = .ok result x') ∧
      instantiate 9 panner (.follow 0) [.out ⟨0, 0⟩, .const .zero, .out ⟨1, 0⟩] noises =
        instantiate 9 panner (.follow 0) tappedArgs noises ∧
      ∃ result x', ∃ places : List Nat, instantiate 9 panner (.follow 0) pannerArgs noises = .ok result x' ∧
        places.Pairwise (· < ·) ∧ result.leaves = places.flatMap fun i => [.out ⟨i, 0⟩, .out ⟨i, 1⟩] := by
  have hcheck : panner.check = .ok () := by decide
  refine ⟨hcheck, ?_, ?_, ?_, ?_⟩
  · refine (instantiate_channels hcheck (.inl rfl) rfl 9 noises).1 (.inl ⟨_, List.mem_cons_self, ?_⟩)
    exact .channel (List.mem_cons_of_mem _ List.mem_cons_self)
      (.channel (List.mem_cons_of_mem _ List.mem_cons_self) .empty)
  · obtain ⟨result, x', hfits, -⟩ :=
      (instantiate_channels hcheck (.inl rfl) rfl 9 noises).2.2.1 solid_untapped suits_untapped
    exact ⟨_, result, x', hfits _ (Nat.le_refl _)⟩
  · refine (instantiate_channels hcheck (.inl rfl) rfl 9 noises).2.2.2.1 _ ?_
    exact .cons rfl (.cons rfl (.cons rfl .nil))
  · have haccepted : (match instantiate 9 panner (.follow 0) pannerArgs noises with
        | .ok _ _ => true
        | .error _ _ => false) = true := by decide +kernel
    cases hx : instantiate 9 panner (.follow 0) pannerArgs noises with
    | ok result x' =>
      obtain ⟨n, places, ⟨taps, htaps, rfl⟩, hreturns⟩ :=
        (instantiate_channels hcheck (.inl rfl) rfl 9 noises).2.2.2.2 result x' hx
      cases htaps
      exact ⟨result, x', places, rfl, hreturns.ordered, hreturns.leaves⟩
    | error e x' =>
      rw [hx] at haccepted
      cases haccepted

end SoundGraph
