import SoundGraph.Proofs.Expansion.Faultless
import SoundGraph.Proofs.Expansion.Instances

/-! Signals without channels. A bundle without channels may stand at any depth. On a single-channel input some
channel of the call reaches it, since no layer is left out, and the call is rejected; on a variadic input it adds
no leaf and makes no difference, unless no leaf is left on the input whose rate is to be followed. Every other
error is about a rate, a reference or the node limit. -/

namespace SoundGraph

/-- Somewhere in the signal stands a bundle without channels. -/
inductive Signal.Hollow : Signal → Prop where
  | empty : Hollow (.bundle [])
  | channel {c : Signal} {cs : List Signal} (hc : c ∈ cs) (h : c.Hollow) : Hollow (.bundle cs)

namespace Signal

theorem hollow_of_channel {s : Signal} {i : Nat} (h : (s.channel i).Hollow) : s.Hollow := by
  cases s with
  | const v => exact h
  | out r => exact h
  | bundle cs =>
    by_cases hcs : cs = []
    · subst hcs
      exact .empty
    · exact .channel (channel_mem hcs i) h

/-- A signal without a leaf is not a leaf itself, and neither is any of its channels. -/
theorem hollow_of_leaves {s : Signal} (h : s.leaves = []) : s.Hollow := by
  induction s using Signal.induction with
  | const v => simp [leaves] at h
  | out r => simp [leaves] at h
  | bundle cs ih =>
    cases cs with
    | nil => exact .empty
    | cons c cs =>
      rw [leaves, leavesOf, List.append_eq_nil_iff] at h
      exact .channel List.mem_cons_self (ih c List.mem_cons_self h.1)

theorem leaves_of_channel {s : Signal} (h : s.leaves = []) (i : Nat) : (s.channel i).leaves = [] := by
  cases s with
  | const v => simp [leaves] at h
  | out r => simp [leaves] at h
  | bundle cs =>
    by_cases hcs : cs = []
    · subst hcs
      rfl
    · rw [leaves, leavesOf_eq, List.flatMap_eq_nil_iff] at h
      exact h _ (channel_mem hcs i)

/-- Below the surface a hollow signal has a hollow channel, at a number that is not past its width. -/
theorem Hollow.exists_channel {s : Signal} (h : s.Hollow) (hne : s ≠ .bundle []) :
    ∃ i < s.layerWidth, (s.channel i).Hollow := by
  cases h with
  | empty => exact absurd rfl hne
  | @channel c cs hc h =>
    obtain ⟨i, hi, rfl⟩ := List.getElem_of_mem hc
    refine ⟨i, hi, ?_⟩
    simpa [Signal.channel, Nat.mod_eq_of_lt hi, List.getElem?_eq_getElem hi] using h

end Signal

open Expansion

/-- What a call that starts from `x` and leaves `x'` can be rejected for. The cause stands in the call: an argument
that lacks a channel, or a leaf given to the instance at the end of a path. -/
inductive Refusal (limit : Nat) (d : Descriptor) (rule : RateRule) (args : List Signal) (x x' : Expansion) :
    CompileError → Prop where
  /-- A single-channel input other than the one to follow lacks a channel. -/
  | emptyInput {k : Nat} {decl : InputDecl} {arg : Signal} (hrule : rule ≠ .follow k)
    (hdecl : d.inputs[k]? = some decl) (hsingle : decl.variadic = false) (harg : args[k]? = some arg)
    (hhollow : arg.Hollow) :
    Refusal limit d rule args x x' (.emptyInput d.name decl.name)
  /-- The input to follow is a single-channel one and lacks a channel. -/
  | emptyPrimary {k : Nat} {decl : InputDecl} {arg : Signal} (hrule : rule = .follow k)
    (hdecl : d.inputs[k]? = some decl) (hsingle : decl.variadic = false) (harg : args[k]? = some arg)
    (hhollow : arg.Hollow) :
    Refusal limit d rule args x x' (.unresolvedRate d.name)
  /-- The input to follow is variadic and has no leaf. -/
  | leafless {k : Nat} {decl : InputDecl} {arg : Signal} (hrule : rule = .follow k)
    (hdecl : d.inputs[k]? = some decl) (hvariadic : decl.variadic = true) (harg : args[k]? = some arg)
    (hleaves : arg.leaves = []) :
    Refusal limit d rule args x x' (.unresolvedRate d.name)
  /-- A leaf cannot be had at the rate that its input requires of an instance at `rate`. -/
  | rateMismatch {p : List Nat} {decl : InputDecl} {source : OutputRef} {rate required actual : Rate}
    (hpath : p ∈ callPaths d args) (hport : (decl, .out source) ∈ ports d.inputs (feed d.inputs args p))
    (hrate : x'.RatedAs (feed d.inputs args p) rate rule) (hactual : x'.outputRate source = .ok actual)
    (hrequired : decl.requirement.required rate = some required)
    (himpossible : coercion actual required = .impossible) :
    Refusal limit d rule args x x' (.rateMismatch d.name decl.name required actual)
  /-- A leaf is no output of a node. -/
  | invalidReference {p : List Nat} {decl : InputDecl} {source : OutputRef} (hpath : p ∈ callPaths d args)
    (hport : (decl, .out source) ∈ ports d.inputs (feed d.inputs args p))
    (hunknown : ∀ rate, x.outputRate source ≠ .ok rate) :
    Refusal limit d rule args x x' (.invalidReference source)
  /-- The limit is reached. -/
  | tooManyNodes (hfull : limit ≤ x'.nodes.size) : Refusal limit d rule args x x' (.tooManyNodes limit)

def Descriptor.Follows (d : Descriptor) (rule : RateRule) : Prop :=
  ∀ k, rule = .follow k → k < d.inputs.length

section Refusal

variable {limit : Nat} {d : Descriptor} {rule : RateRule} {args : List Signal} {x y x' : Expansion}
  {e : CompileError}

/-- An output that is missing later was missing before. -/
theorem Refusal.of_within (hw : x.Within y) (h : Refusal limit d rule args y x' e) :
    Refusal limit d rule args x x' e := by
  cases h with
  | emptyInput hrule hdecl hsingle harg hhollow => exact .emptyInput hrule hdecl hsingle harg hhollow
  | emptyPrimary hrule hdecl hsingle harg hhollow => exact .emptyPrimary hrule hdecl hsingle harg hhollow
  | leafless hrule hdecl hvariadic harg hleaves => exact .leafless hrule hdecl hvariadic harg hleaves
  | rateMismatch hpath hport hrate hactual hrequired himpossible =>
    exact .rateMismatch hpath hport hrate hactual hrequired himpossible
  | invalidReference hpath hport hunknown =>
    exact .invalidReference hpath hport fun rate hrate => hunknown rate (hw.outputRate hrate)
  | tooManyNodes hfull => exact .tooManyNodes hfull

/-- What channel `i` is rejected for, the call is. -/
theorem Refusal.of_strip {i : Nat}
    (hpaths : ∀ p ∈ callPaths d (strip i d.inputs args), i :: p ∈ callPaths d args)
    (h : Refusal limit d rule (strip i d.inputs args) x x' e) : Refusal limit d rule args x x' e := by
  have hstrip : ∀ {k : Nat} {decl : InputDecl} {arg : Signal}, d.inputs[k]? = some decl →
      (strip i d.inputs args)[k]? = some arg →
      ∃ whole, args[k]? = some whole ∧ (if decl.variadic then whole else whole.channel i) = arg := by
    intro k decl arg hdecl harg
    rw [getElem?_strip hdecl] at harg
    exact Option.map_eq_some_iff.1 harg
  cases h with
  | emptyInput hrule hdecl hsingle harg hhollow =>
    obtain ⟨whole, hwhole, rfl⟩ := hstrip hdecl harg
    rw [if_neg (by simp [hsingle])] at hhollow
    exact .emptyInput hrule hdecl hsingle hwhole (Signal.hollow_of_channel hhollow)
  | emptyPrimary hrule hdecl hsingle harg hhollow =>
    obtain ⟨whole, hwhole, rfl⟩ := hstrip hdecl harg
    rw [if_neg (by simp [hsingle])] at hhollow
    exact .emptyPrimary hrule hdecl hsingle hwhole (Signal.hollow_of_channel hhollow)
  | leafless hrule hdecl hvariadic harg hleaves =>
    obtain ⟨whole, hwhole, rfl⟩ := hstrip hdecl harg
    rw [if_pos hvariadic] at hleaves
    exact .leafless hrule hdecl hvariadic hwhole hleaves
  | rateMismatch hpath hport hrate hactual hrequired himpossible =>
    rw [feed_strip] at hport hrate
    exact .rateMismatch (hpaths _ hpath) hport hrate hactual hrequired himpossible
  | invalidReference hpath hport hunknown =>
    rw [feed_strip] at hport
    exact .invalidReference (hpaths _ hpath) hport hunknown
  | tooManyNodes hfull => exact .tooManyNodes hfull

theorem refusal_of_fanWidth (h : d.fanWidth rule 0 d.inputs args = .error e) :
    Refusal limit d rule args x x' e := by
  obtain ⟨k, decl, hdecl, hsingle, harg, rfl⟩ := exists_empty_of_fanWidth h
  rw [Nat.zero_add, Descriptor.starved]
  split
  · next hrule => exact .emptyPrimary hrule hdecl hsingle harg .empty
  · next hrule => exact .emptyInput hrule hdecl hsingle harg .empty

theorem mem_ports {decls : List InputDecl} {feed : List (List Signal)} {k : Nat} {decl : InputDecl}
    {leaves : List Signal} {leaf : Signal} (hdecl : decls[k]? = some decl) (hfeed : feed[k]? = some leaves)
    (hleaf : leaf ∈ leaves) : (decl, leaf) ∈ ports decls feed := by
  have hzip : (decls.zip feed)[k]? = some (decl, leaves) := List.getElem?_zip_eq_some.2 ⟨hdecl, hfeed⟩
  exact List.mem_flatMap.2 ⟨_, List.mem_of_getElem? hzip, List.mem_map_of_mem hleaf⟩

theorem refusal_of_resolveRate (hfollows : d.Follows rule) (hlen : args.length = d.inputs.length)
    (hwidth : d.fanWidth rule 0 d.inputs args = .ok 0) (h : x.resolveRate d args rule = .error e) :
    Refusal limit d rule args x x' e := by
  cases rule with
  | fixed r => cases h
  | follow k =>
    have hk : k < d.inputs.length := hfollows k rfl
    have hdecl : d.inputs[k]? = some d.inputs[k] := List.getElem?_eq_getElem hk
    obtain ⟨arg, harg⟩ : ∃ arg, args[k]? = some arg := ⟨_, List.getElem?_eq_getElem (hlen ▸ hk)⟩
    simp only [resolveRate, harg] at h
    split at h
    · next hleaves =>
      cases h
      cases hvariadic : d.inputs[k].variadic with
      | true => exact .leafless rfl hdecl hvariadic harg hleaves
      | false => exact .emptyPrimary rfl hdecl hvariadic harg (Signal.hollow_of_leaves hleaves)
    · next source rest hleaves =>
      have hport : (d.inputs[k], .out source) ∈ ports d.inputs (feed d.inputs args []) := by
        rw [feed_of_fanWidth hlen hwidth]
        have hfeed : (args.map Signal.leaves)[k]? = some arg.leaves := by rw [List.getElem?_map, harg, Option.map_some]
        exact mem_ports hdecl hfeed (hleaves ▸ List.mem_cons_self)
      rw [outputRate_eq_error h]
      exact .invalidReference (by rw [callPaths_of_zero hwidth]; exact List.mem_cons_self) hport
        fun rate hrate => by rw [hrate] at h; cases h
    · cases h

end Refusal

namespace Expanding

variable {α β : Type}

/-- Whether it answers or stops, `act` only adds; and if it stops, it is rejected with an error of which `E` holds,
from the expansion it started from to the one it leaves. -/
def RejectsWith (E : Expansion → Expansion → CompileError → Prop) (act : Expanding α) : Prop :=
  ∀ x, act.Ensures x (fun _ x' => x.Within x') fun e x' => x.Within x' ∧ ∃ err, e = .rejected err ∧ E x x' err

section RejectsWith

variable {E E' : Expansion → Expansion → CompileError → Prop}

theorem RejectsWith.imp {act : Expanding α} (h : act.RejectsWith E) (hE : ∀ x x' err, E x x' err → E' x x' err) :
    act.RejectsWith E' :=
  fun x => (h x).imp (fun _ _ => id) fun _ x' ⟨hw, err, he, herr⟩ => ⟨hw, err, he, hE x x' err herr⟩

/-- What holds from a later expansion on has to hold from an earlier one on. -/
theorem composes_rejectsWith (hE : ∀ x y x' err, x.Within y → E y x' err → E x x' err) :
    Composes (RejectsWith E) where
  pure _ x := .refl x
  bind h hf x := by
    refine (h x).bind_of_ok fun a y hok hw => ?_
    exact (hf a ⟨x, y, hok⟩ y).imp (fun _ _ => hw.trans)
      fun _ x' ⟨hw', err, he, herr⟩ => ⟨hw.trans hw', err, he, hE x y x' err hw herr⟩

theorem rejectsWith_reject {e : CompileError} (h : ∀ x, E x x e) : (reject e : Expanding α).RejectsWith E :=
  fun x => ⟨.refl x, e, rfl, h x⟩

theorem rejectsWith_push {limit : Nat} (h : ∀ x : Expansion, limit ≤ x.nodes.size → E x x (.tooManyNodes limit))
    (node : EmittedNode) : (push limit node).RejectsWith E := by
  intro x
  unfold Ensures push
  by_cases hfull : limit ≤ x.nodes.size
  · rw [if_pos hfull]
    exact ⟨.refl x, _, rfl, h x hfull⟩
  · rw [if_neg hfull]
    exact x.within_push node

theorem rejectsWith_intern (v : Sample) : (intern v).RejectsWith E := fun x => x.within_intern v

end RejectsWith

section Refusal

variable {limit : Nat} {d : Descriptor} {rule : RateRule} {args : List Signal}

/-- What an instance at the end of a path can be rejected for, once its rate is known. -/
def RefusedAt (limit : Nat) (d : Descriptor) (rule : RateRule) (args : List Signal) (p : List Nat) (rate : Rate)
    (x x' : Expansion) (e : CompileError) : Prop :=
  x.RatedAs (feed d.inputs args p) rate rule → Refusal limit d rule args x x' e

theorem composes_refusedAt (limit : Nat) (d : Descriptor) (rule : RateRule) (args : List Signal) (p : List Nat)
    (rate : Rate) : Composes (RejectsWith (RefusedAt limit d rule args p rate)) :=
  composes_rejectsWith fun _ _ _ _ hw h hrate => (h (hrate.within hw)).of_within hw

theorem ensures_of_refusedAt {act : Expanding α} {p : List Nat} {rate : Rate} {x : Expansion}
    (hrated : x.RatedAs (feed d.inputs args p) rate rule) (h : act.RejectsWith (RefusedAt limit d rule args p rate)) :
    act.Ensures x (fun _ x' => x.Within x')
      fun e x' => x.Within x' ∧ ∃ err, e = .rejected err ∧ Refusal limit d rule args x x' err :=
  (h x).imp (fun _ _ => id) fun _ _ ⟨hw, err, he, herr⟩ => ⟨hw, err, he, herr hrated⟩

theorem rejectsWith_push_refusedAt (p : List Nat) (rate : Rate) (node : EmittedNode) :
    (push limit node).RejectsWith (RefusedAt limit d rule args p rate) :=
  rejectsWith_push (fun _ hfull _ => .tooManyNodes hfull) node

/-- A leaf is refused for its rate, or for what it refers to. -/
theorem refusal_connectOutput {p : List Nat} (hpath : p ∈ callPaths d args) (rate : Rate) {decl : InputDecl}
    {source : OutputRef} (hport : (decl, .out source) ∈ ports d.inputs (feed d.inputs args p)) :
    (connectOutput limit d decl rate source).RejectsWith (RefusedAt limit d rule args p rate) := by
  have hcomposes := composes_refusedAt limit d rule args p rate
  intro x
  refine Ensures.bind (Q := fun actual x' => x' = x ∧ x.outputRate source = .ok actual) ?_ ?_
  · refine (ensures_check _ x).imp (fun _ _ => id) ?_
    rintro e x' ⟨rfl, err, rfl, herr⟩
    refine ⟨.refl x', err, rfl, fun _ => ?_⟩
    rw [outputRate_eq_error herr]
    exact .invalidReference hpath hport fun rate hrate => by rw [hrate] at herr; cases herr
  · rintro actual x' ⟨rfl, hactual⟩
    cases hrequired : decl.requirement.required rate with
    | none => exact hcomposes.pure _ x'
    | some required =>
      dsimp only
      cases hcoercion : coercion actual required with
      | direct => exact hcomposes.pure _ x'
      | convert name => exact hcomposes.bind (rejectsWith_push_refusedAt p rate _) (fun _ _ => hcomposes.pure _) x'
      | impossible =>
        exact ⟨.refl x', _, rfl, fun hrate => .rateMismatch hpath hport hrate hactual hrequired hcoercion⟩

theorem refusal_connectAll {p : List Nat} (hpath : p ∈ callPaths d args) (rate : Rate) {decls : List InputDecl}
    {signals : List Signal}
    (hports : ports decls (signals.map Signal.leaves) ⊆ ports d.inputs (feed d.inputs args p)) :
    (connectAll limit d rate decls signals).RejectsWith (RefusedAt limit d rule args p rate) := by
  have hcomposes := composes_refusedAt limit d rule args p rate
  induction decls generalizing signals with
  | nil => exact hcomposes.pure []
  | cons decl decls ih =>
    cases signals with
    | nil => exact hcomposes.pure []
    | cons signal signals =>
      obtain ⟨hhere, hlater⟩ := List.append_subset.1 hports
      refine hcomposes.bind (hcomposes.mapM fun leaf hleaf => ?_) fun here _ =>
        hcomposes.bind (ih hlater) fun rest _ => hcomposes.pure _
      cases leaf with
      | const v => exact hcomposes.bind (rejectsWith_intern v) fun c _ => hcomposes.pure _
      | bundle channels => exact absurd hleaf signal.bundle_not_mem_leaves
      | out source => exact refusal_connectOutput hpath rate (hhere (List.mem_map_of_mem hleaf))

theorem refusal_emit (hfollows : d.Follows rule) (hlen : args.length = d.inputs.length)
    (hwidth : d.fanWidth rule 0 d.inputs args = .ok 0) :
    (emit limit d rule args).RejectsWith (Refusal limit d rule args) := by
  have hpath : [] ∈ callPaths d args := by rw [callPaths_of_zero hwidth]; exact List.mem_cons_self
  have hfeed := feed_of_fanWidth hlen hwidth
  intro x
  refine Ensures.bind (Q := fun rate x' => x' = x ∧ x.resolveRate d args rule = .ok rate) ?_ ?_
  · refine (ensures_check _ x).imp (fun _ _ => id) ?_
    rintro e x' ⟨rfl, err, rfl, herr⟩
    exact ⟨.refl x', err, rfl, refusal_of_resolveRate hfollows hlen hwidth herr⟩
  · rintro rate x' ⟨rfl, hrate⟩
    have hcomposes := composes_refusedAt limit d rule args [] rate
    have hrated : x'.RatedAs (feed d.inputs args []) rate rule := hfeed ▸ ratedAs_of_resolveRate hrate
    have hports : ports d.inputs (args.map Signal.leaves) ⊆ ports d.inputs (feed d.inputs args []) := by
      rw [hfeed]
      exact List.Subset.refl _
    refine ensures_of_refusedAt hrated (hcomposes.bind (refusal_connectAll hpath rate hports) fun inputs _ => ?_)
    exact hcomposes.bind (rejectsWith_push_refusedAt [] rate _) fun index _ => hcomposes.pure _

/-- By induction on the bundle layers that are left. -/
theorem refusal_fanOut (hfollows : d.Follows rule) (hlen : args.length = d.inputs.length) :
    (fanOut limit d rule args).RejectsWith (Refusal limit d rule args) := by
  induction hn : fanDepth d.inputs args using Nat.strongRecOn generalizing args with
  | ind n ih =>
    cases hwidth : d.fanWidth rule 0 d.inputs args with
    | error e =>
      rw [fanOut_of_error hwidth]
      exact rejectsWith_reject fun x => refusal_of_fanWidth hwidth
    | ok w =>
      cases w with
      | zero =>
        rw [fanOut_of_zero hwidth]
        exact refusal_emit hfollows hlen hwidth
      | succ w =>
        have hcomposes : Composes (RejectsWith (Refusal limit d rule args)) :=
          composes_rejectsWith fun _ _ _ _ => Refusal.of_within
        rw [fanOut_of_succ hwidth]
        refine hcomposes.bind (hcomposes.mapM fun i hi => ?_) fun channels _ => hcomposes.pure _
        have hpaths : ∀ p ∈ callPaths d (strip i d.inputs args), i :: p ∈ callPaths d args := by
          intro p hp
          rw [callPaths_of_succ hwidth]
          exact List.mem_flatMap.2 ⟨i, hi, List.mem_map_of_mem hp⟩
        rw [fanOutAt_eq hwidth]
        exact (ih _ (hn ▸ fanDepth_strip_lt hwidth i) (length_strip i hlen) rfl).imp fun _ _ _ => .of_strip hpaths

end Refusal

/-- Each action of a list that succeeds has succeeded. -/
theorem exists_of_run_mapM {f : α → Expanding β} {as : List α} {bs : List β} {x x' : Expansion}
    (h : as.mapM f x = .ok bs x') {a : α} (ha : a ∈ as) : ∃ b, (f a).Answers b := by
  induction as generalizing x bs with
  | nil => cases ha
  | cons a' as ih =>
    obtain ⟨b, bs, x₁, hb, hrest, rfl⟩ := run_mapM_cons_eq_ok_iff.1 h
    rcases List.mem_cons.1 ha with rfl | ha
    · exact ⟨b, x, x₁, hb⟩
    · exact ih hrest ha

end Expanding

section Success

open Expanding

variable {limit : Nat} {d : Descriptor} {rule : RateRule} {args : List Signal}

/-- No single-channel argument lacks a channel, and the one to follow has a leaf. -/
structure Solid (d : Descriptor) (rule : RateRule) (args : List Signal) : Prop where
  singles : ∀ s ∈ singles d.inputs args, ¬s.Hollow
  primary : ∀ k decl arg, rule = .follow k → d.inputs[k]? = some decl → args[k]? = some arg → arg.leaves ≠ []

theorem solid_emit {x x' : Expansion} {result : Signal} (hwidth : d.fanWidth rule 0 d.inputs args = .ok 0)
    (h : emit limit d rule args x = .ok result x') : Solid d rule args := by
  obtain ⟨hwidest, hcarrying⟩ := widest_of_fanWidth hwidth
  obtain ⟨i, node, -, -, -, hstands⟩ := stands_emit h
  refine ⟨fun s hs hhollow => ?_, fun k decl arg hrule _ harg hleaves => ?_⟩
  · obtain ⟨i, hi, -⟩ := hhollow.exists_channel (hcarrying s hs)
    have := layerWidth_le_widest hs
    omega
  · subst hrule
    obtain ⟨leaf, rest, hfeed, -⟩ := hstands.rate
    rw [List.getElem?_map, harg, Option.map_some, hleaves] at hfeed
    cases hfeed

/-- Every channel of a hollow argument is asked for, so a hollow channel is. -/
theorem solid_channels {w : Nat} (hwidth : d.fanWidth rule 0 d.inputs args = .ok (w + 1))
    (h : ∀ i < w + 1, Solid d rule (strip i d.inputs args)) : Solid d rule args := by
  obtain ⟨hwidest, hcarrying⟩ := widest_of_fanWidth hwidth
  refine ⟨fun s hs hhollow => ?_, fun k decl arg hrule hdecl harg hleaves => ?_⟩
  · obtain ⟨i, hi, hchannel⟩ := hhollow.exists_channel (hcarrying s hs)
    have hle := layerWidth_le_widest hs
    have hsolid := (h i (by omega)).singles
    rw [singles_strip] at hsolid
    exact hsolid _ (List.mem_map_of_mem hs) hchannel
  · have hstrip : (strip 0 d.inputs args)[k]? = _ := getElem?_strip hdecl
    rw [harg] at hstrip
    refine (h 0 w.succ_pos).primary k decl _ hrule hdecl hstrip ?_
    dsimp only
    split
    · exact hleaves
    · exact Signal.leaves_of_channel hleaves 0

theorem solid_fanOut (hlen : args.length = d.inputs.length) {x x' : Expansion} {result : Signal}
    (h : fanOut limit d rule args x = .ok result x') : Solid d rule args := by
  refine fanOut_induction (P := fun args _ _ _ => Solid d rule args) (fun _ hwidth h => solid_emit hwidth h)
    (fun {args w x channels x'} hwidth hchannel hchannels => ?_) hlen h
  refine solid_channels hwidth fun i hi => ?_
  obtain ⟨s, y, y', hs⟩ := exists_of_run_mapM hchannels (List.mem_range'_1.2 ⟨Nat.zero_le i, by omega⟩)
  exact hchannel i y s y' hs

end Success

end SoundGraph
