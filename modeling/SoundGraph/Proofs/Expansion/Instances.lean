import SoundGraph.Proofs.Expansion.FanOut

/-! The table that a call leaves, place by place. A call that succeeds emits an instance for each path and
nothing between two of them. So each instance stands right behind the converters made for it, the converters of
the next one begin right behind it, and no place is left for another node: a converter is made for one leaf of
one instance, and only where the leaf cannot be read as it is. -/

namespace SoundGraph

open Expanding Expansion

def spread (decls : List InputDecl) (args : List Signal) (p : List Nat) : List Signal :=
  List.zipWith (fun decl arg => if decl.variadic then arg else arg.follow p) decls args

/-- The paths of the instances of a call, in the order in which they are emitted. -/
def callPaths (d : Descriptor) (args : List Signal) : List (List Nat) :=
  (broadcast (singles d.inputs args)).paths

section Paths

variable {limit : Nat} {d : Descriptor} {rule : RateRule} {args : List Signal} {x x' : Expansion}
  {result : Signal}

theorem spread_nil {decls : List InputDecl} (h : args.length = decls.length) : spread decls args [] = args := by
  induction decls generalizing args with
  | nil => rw [List.length_eq_zero_iff.1 h]; rfl
  | cons decl decls ih =>
    cases args with
    | nil => rfl
    | cons arg args =>
      rw [spread, List.zipWith_cons_cons, ← spread, ih (Nat.succ.inj h)]
      cases decl.variadic <;> rfl

theorem spread_strip (i : Nat) (decls : List InputDecl) (args : List Signal) (p : List Nat) :
    spread decls (strip i decls args) p = spread decls args (i :: p) := by
  rw [spread, zipWith_strip, spread]
  congr 1
  funext decl arg
  cases decl.variadic <;> rfl

theorem callPaths_of_zero (h : d.fanWidth rule 0 d.inputs args = .ok 0) : callPaths d args = [[]] := by
  rw [callPaths, broadcast_of_eq (widest_of_fanWidth h).1]
  rfl

theorem callPaths_of_succ {w : Nat} (h : d.fanWidth rule 0 d.inputs args = .ok (w + 1)) :
    callPaths d args =
      (List.range (w + 1)).flatMap fun i => (callPaths d (strip i d.inputs args)).map (i :: ·) := by
  have hwidest := (widest_of_fanWidth h).1
  rw [callPaths, broadcast_of_ne (by omega), hwidest, Fan.paths_many]
  simp only [callPaths, singles_strip]

/-- From `x` to `x'` an instance is emitted at the end of each path, one after the other, and each is given the
leaves that its path leads to. -/
def EmitsInTurn (limit : Nat) (d : Descriptor) (rule : RateRule) (args : List Signal)
    (paths : List (List Nat)) (x x' : Expansion) : Prop :=
  (∃ results, (paths.map (spread d.inputs args)).mapM (emit limit d rule) x = .ok results x') ∧
    ∀ p ∈ paths, (spread d.inputs args p).map Signal.leaves = feed d.inputs args p

/-- Inside channel `i` a path lacks the number of the channel. -/
theorem EmitsInTurn.inside {i : Nat} {paths : List (List Nat)}
    (h : EmitsInTurn limit d rule (strip i d.inputs args) paths x x') :
    EmitsInTurn limit d rule args (paths.map (i :: ·)) x x' := by
  obtain ⟨⟨results, hrun⟩, hfeed⟩ := h
  refine ⟨⟨results, ?_⟩, fun q hq => ?_⟩
  · have hspread := funext (spread_strip i d.inputs args)
    rw [hspread] at hrun
    rw [List.map_map]
    exact hrun
  · obtain ⟨p, hp, rfl⟩ := List.mem_map.1 hq
    rw [← spread_strip, hfeed p hp, feed_strip]

theorem EmitsInTurn.append {paths paths' : List (List Nat)} {x₁ : Expansion}
    (h : EmitsInTurn limit d rule args paths x x₁) (h' : EmitsInTurn limit d rule args paths' x₁ x') :
    EmitsInTurn limit d rule args (paths ++ paths') x x' := by
  obtain ⟨⟨results, hrun⟩, hfeed⟩ := h
  obtain ⟨⟨results', hrun'⟩, hfeed'⟩ := h'
  refine ⟨⟨results ++ results', ?_⟩, fun p hp => ?_⟩
  · rw [List.map_append]
    exact run_mapM_append hrun hrun'
  · exact (List.mem_append.1 hp).elim (hfeed p) (hfeed' p)

/-- Channel after channel. -/
theorem emitsInTurn_channels {channels : List Nat} {results : List Signal}
    (hchannel : ∀ i x s x', fanOutAt limit d rule args i x = .ok s x' →
      EmitsInTurn limit d rule (strip i d.inputs args) (callPaths d (strip i d.inputs args)) x x')
    (h : channels.mapM (fanOutAt limit d rule args) x = .ok results x') :
    EmitsInTurn limit d rule args
      (channels.flatMap fun i => (callPaths d (strip i d.inputs args)).map (i :: ·)) x x' := by
  induction channels generalizing x results with
  | nil =>
    cases h
    exact ⟨⟨[], rfl⟩, List.forall_mem_nil _⟩
  | cons i channels ih =>
    obtain ⟨s, rest, x₁, hs, hrest, rfl⟩ := run_mapM_cons_eq_ok_iff.1 h
    rw [List.flatMap_cons]
    exact (hchannel i x s x₁ hs).inside.append (ih hrest)

theorem emitsInTurn_fanOut (hlen : args.length = d.inputs.length)
    (h : fanOut limit d rule args x = .ok result x') :
    EmitsInTurn limit d rule args (callPaths d args) x x' := by
  refine fanOut_induction (P := fun args x _ x' => EmitsInTurn limit d rule args (callPaths d args) x x')
    (fun {args x result x'} hlen hwidth h => ?_) (fun hwidth hchannel hchannels => ?_) hlen h
  · rw [callPaths_of_zero hwidth]
    refine ⟨⟨[result], ?_⟩, List.forall_mem_singleton.2 ?_⟩
    · rw [List.map_singleton, spread_nil hlen]
      exact run_mapM_cons_eq_ok_iff.2 ⟨result, [], x', h, rfl, rfl⟩
    · rw [spread_nil hlen, feed_of_fanWidth hlen hwidth]
  · rw [callPaths_of_succ hwidth, List.range_eq_range']
    exact emitsInTurn_channels hchannel hchannels

end Paths

/-- The places from `n` up to `m` hold instances given these leaves, each behind its converters, and nothing
else. -/
inductive Expansion.Series (x : Expansion) (d : Descriptor) (rule : RateRule) :
    Nat → List (List (List Signal)) → Nat → Prop where
  | nil (n : Nat) : Series x d rule n [] n
  | cons {feed : List (List Signal)} {feeds : List (List (List Signal))} {node : EmittedNode} {n i m : Nat}
    (h : x.Stands n i d rule feed node) (hrest : Series x d rule (i + 1) feeds m) :
    Series x d rule n (feed :: feeds) m

section Series

variable {limit : Nat} {x x' : Expansion} {d : Descriptor} {rule : RateRule}

theorem Expansion.Series.within {feeds : List (List (List Signal))} {n m : Nat} (h : x.Series d rule n feeds m)
    (hw : x.Within x') : x'.Series d rule n feeds m := by
  induction h with
  | nil n => exact .nil n
  | cons h _ ih => exact .cons (h.within hw) ih

theorem series_mapM_emit {argss : List (List Signal)} {results : List Signal}
    (h : argss.mapM (emit limit d rule) x = .ok results x') :
    x.Within x' ∧ x'.Series d rule x.nodes.size (argss.map (·.map Signal.leaves)) x'.nodes.size := by
  induction argss generalizing x results with
  | nil =>
    cases h
    exact ⟨.refl _, .nil _⟩
  | cons args argss ih =>
    obtain ⟨result, rest, x₁, hone, hrest, rfl⟩ := run_mapM_cons_eq_ok_iff.1 h
    obtain ⟨i, node, -, hlast, hw, hstands⟩ := stands_emit hone
    obtain ⟨hw', hseries⟩ := ih hrest
    rw [← hlast] at hseries
    exact ⟨hw.trans hw', .cons (hstands.within hw') hseries⟩

/-- The nodes that a call adds are its instances, in the order of their paths, and their converters. -/
theorem series_instantiate {args : List Signal} {result : Signal}
    (h : instantiate limit d rule args x = .ok result x') :
    x.Within x' ∧
      x'.Series d rule x.nodes.size ((callPaths d args).map (feed d.inputs args)) x'.nodes.size := by
  unfold instantiate at h
  split at h
  · next hlen =>
    obtain ⟨⟨results, hrun⟩, hfeed⟩ := emitsInTurn_fanOut hlen h
    obtain ⟨hw, hseries⟩ := series_mapM_emit hrun
    rw [List.map_map] at hseries
    rw [← List.map_congr_left hfeed]
    exact ⟨hw, hseries⟩
  · cases h

end Series

end SoundGraph
