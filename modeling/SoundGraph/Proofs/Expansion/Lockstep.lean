import SoundGraph.Proofs.Expansion.Origins
import SoundGraph.Proofs.Expansion.Plain
import SoundGraph.Proofs.Expansion.Rejection
import SoundGraph.Proofs.Expansion.Twins

/-! Two runs of the same actions on two tables. It is known how the first run ends, and the second one is given
twins of what the first one is given. It then emits a twin of every node that the first one emits and answers with
twins, or it stops for the limit, its table being ahead by some nodes. Whatever the tables have to do with each
other, it is enough that interning a constant and pushing a node keep it so, and that twins run at the same rate. -/

namespace SoundGraph

structure Lockstep where
  /-- The tables at one moment. -/
  At : Expansion → Expansion → Prop
  /-- The second node stands for the first one. -/
  Twin : Nat → Nat → Prop
  /-- Nodes with these flags get a twin that stands for them. -/
  Tracked : Flags → Prop
  /-- What the first run ends with. -/
  last : Expansion
  /-- By how many nodes the second table is ahead. -/
  lead : Nat
  tracked_plain : Tracked {}
  size : ∀ {x y}, At x y → y.nodes.size = x.nodes.size + lead
  outputRate : ∀ {x y r r' rate}, At x y → r.Twins Twin r' → x.outputRate r = .ok rate → y.outputRate r' = .ok rate
  intern : ∀ {x y} v, At x y → Expansion.Within { x with constants := (x.constants.intern v).2 } last →
    (y.constants.intern v).1 = (x.constants.intern v).1 ∧
      At { x with constants := (x.constants.intern v).2 } { y with constants := (y.constants.intern v).2 }
  push : ∀ {x y node node'}, At x y → node.Twins Twin node' →
    Expansion.Within { x with nodes := x.nodes.push node } last →
      At { x with nodes := x.nodes.push node } { y with nodes := y.nodes.push node' } ∧
        (Tracked node.flags → Twin x.nodes.size y.nodes.size)

namespace Lockstep

open Expanding Expansion

variable {α β γ δ : Type} {l : Lockstep} {limit : Nat}

/-- The second run reaches the limit before it has emitted what it has to. -/
def Stops (l : Lockstep) (limit : Nat) (e : Abort) : Prop :=
  e = .rejected (.tooManyNodes limit) ∧ limit < l.last.nodes.size + l.lead

/-- While the first run does `act` and answers with `a`, the second one does `act'` and answers with some `b` such
that `Q a b`, or it stops for the limit. -/
def Mirrors (l : Lockstep) (limit : Nat) (act : Expanding α) (act' : Expanding β) (Q : α → β → Prop) : Prop :=
  ∀ x y a x', l.At x y → act x = .ok a x' → x'.Within l.last →
    act'.Ensures y (fun b y' => Q a b ∧ l.At x' y') fun e _ => l.Stops limit e

section Sequences

variable {act : Expanding α} {act' : Expanding β} {Q Q' : α → β → Prop} {R : γ → δ → Prop}

theorem mirrors_pure {a : α} {b : β} (h : Q a b) : l.Mirrors limit (pure a) (pure b) Q := by
  intro x y a' x' hat hok hw
  cases hok
  exact ⟨h, hat⟩

/-- What never answers need not be followed. -/
theorem mirrors_throw {e : Abort} : l.Mirrors limit (throw e) act' Q := by
  intro x y a x' hat hok hw
  cases hok

theorem Mirrors.imp (h : l.Mirrors limit act act' Q) (hQ : ∀ a b, Q a b → Q' a b) :
    l.Mirrors limit act act' Q' :=
  fun x y a x' hat hok hw => (h x y a x' hat hok hw).imp (fun _ _ ⟨hq, hat⟩ => ⟨hQ _ _ hq, hat⟩) fun _ _ he => he

theorem Mirrors.bind {f : α → Expanding γ} {f' : β → Expanding δ} (h : l.Mirrors limit act act' Q)
    (hgrows : ∀ a, (f a).Widens) (hf : ∀ a b, Q a b → l.Mirrors limit (f a) (f' b) R) :
    l.Mirrors limit (act >>= f) (act' >>= f') R := by
  intro x y c x' hat hok hw
  obtain ⟨a, x₁, hact, hrest⟩ := run_bind_eq_ok_iff.1 hok
  refine (h x y a x₁ hat hact ((hgrows a x₁ c x' hrest).trans hw)).bind fun b y₁ hfirst => ?_
  exact hf a b hfirst.1 x₁ y₁ c x' hfirst.2 hrest hw

theorem mirrors_mapM {f : α → Expanding γ} {f' : β → Expanding δ} (hgrows : ∀ a, (f a).Widens)
    (hf : ∀ a b, Q a b → l.Mirrors limit (f a) (f' b) R) {as : List α} {bs : List β} (h : List.Forall₂ Q as bs) :
    l.Mirrors limit (as.mapM f) (bs.mapM f') (List.Forall₂ R) := by
  induction h with
  | nil => exact mirrors_pure .nil
  | @cons a b as bs hab _ ih =>
    rw [List.mapM_cons, List.mapM_cons]
    have hrest : ∀ c, Widens (as.mapM f >>= fun cs => pure (c :: cs)) := fun c =>
      composes_widens.bind (composes_widens.mapM fun a _ => hgrows a) fun cs _ => composes_widens.pure (c :: cs)
    refine (hf a b hab).bind hrest fun c d hcd => ?_
    exact ih.bind (fun cs => composes_widens.pure (c :: cs)) fun cs ds hcs => mirrors_pure (.cons hcd hcs)

theorem mirrors_foldlM {f : γ → α → Expanding γ} {f' : δ → β → Expanding δ} (hgrows : ∀ c a, (f c a).Widens)
    (hf : ∀ c d a b, R c d → Q a b → l.Mirrors limit (f c a) (f' d b) R) {as : List α} {bs : List β}
    (h : List.Forall₂ Q as bs) {c : γ} {d : δ} (hcd : R c d) :
    l.Mirrors limit (as.foldlM f c) (bs.foldlM f' d) R := by
  induction h generalizing c d with
  | nil => exact mirrors_pure hcd
  | cons hab _ ih =>
    rw [List.foldlM_cons, List.foldlM_cons]
    exact (hf _ _ _ _ hcd hab).bind (fun c => composes_widens.foldlM hgrows _ c) fun c d hcd => ih hcd

theorem mirrors_check {f : Expansion → Except CompileError α} {f' : Expansion → Except CompileError β}
    (h : ∀ {x y a}, l.At x y → f x = .ok a → ∃ b, f' y = .ok b ∧ Q a b) :
    l.Mirrors limit (check f) (check f') Q := by
  intro x y a x' hat hok hw
  obtain ⟨ha, rfl⟩ := run_check_eq_ok_iff.1 hok
  obtain ⟨b, hb, hab⟩ := h hat ha
  simp only [Ensures, check, hb]
  exact ⟨hab, hat⟩

theorem mirrors_intern (v : Sample) : l.Mirrors limit (Expanding.intern v) (Expanding.intern v) fun i j => j = i := by
  intro x y i x' hat hok hw
  cases hok
  exact l.intern v hat hw

theorem mirrors_push {node node' : EmittedNode} (h : node.Twins l.Twin node') :
    l.Mirrors limit (Expanding.push limit node) (Expanding.push limit node') fun i j =>
      l.Tracked node.flags → l.Twin i j := by
  intro x y i x' hat hok hw
  obtain ⟨rfl, rfl⟩ := run_push_eq_ok hok
  have hsize := hw.size_le
  rw [Array.size_push] at hsize
  unfold Ensures Expanding.push
  by_cases hfull : limit ≤ y.nodes.size
  · rw [if_pos hfull]
    rw [l.size hat] at hfull
    exact ⟨rfl, by omega⟩
  · rw [if_neg hfull]
    obtain ⟨hat', htwin⟩ := l.push hat h hw
    exact ⟨htwin, hat'⟩

end Sequences

section Instances

variable {d : Descriptor} {rule : RateRule} {decl : InputDecl} {rate : Rate} {args args' : List Signal}

theorem mirrors_connectOutput {r r' : OutputRef} (h : r.Twins l.Twin r') :
    l.Mirrors limit (connectOutput limit d decl rate r) (connectOutput limit d decl rate r') (Input.Twins l.Twin) := by
  unfold connectOutput
  refine Mirrors.bind (Q := fun actual actual' => actual' = actual)
    (mirrors_check fun hat hactual => ⟨_, l.outputRate hat h hactual, rfl⟩) (fun actual => ?_) ?_
  · split
    · exact composes_widens.pure _
    · split
      · exact composes_widens.pure _
      · exact composes_widens.bind (widens_push limit _) fun _ _ => composes_widens.pure _
      · exact widens_throw _
  · rintro actual _ rfl
    split
    · exact mirrors_pure (.node h)
    · next required _ =>
      split
      · exact mirrors_pure (.node h)
      · next name _ =>
        have htwins : (converter name required r).Twins l.Twin (converter name required r') :=
          ⟨_, rfl, .cons (.node h) .nil⟩
        refine (mirrors_push htwins).bind (fun _ => composes_widens.pure _) fun i j hij => ?_
        exact mirrors_pure (.node ⟨hij l.tracked_plain, rfl⟩)
      · exact mirrors_throw

theorem mirrors_connect {leaf leaf' : Signal} (h : leaf.Twins l.Twin leaf') :
    l.Mirrors limit (connect limit d decl rate leaf) (connect limit d decl rate leaf') (Input.Twins l.Twin) := by
  cases h with
  | const v =>
    refine (mirrors_intern v).bind (fun _ => composes_widens.pure _) ?_
    rintro c _ rfl
    exact mirrors_pure (.constant _)
  | out h => exact mirrors_connectOutput h
  | bundle h => exact mirrors_throw

theorem mirrors_connectAll {decls : List InputDecl} (h : List.Forall₂ (Signal.Twins l.Twin) args args') :
    l.Mirrors limit (connectAll limit d rate decls args) (connectAll limit d rate decls args')
      (List.Forall₂ (Input.Twins l.Twin)) := by
  induction decls generalizing args args' with
  | nil => exact mirrors_pure .nil
  | cons decl decls ih =>
    cases h with
    | nil => exact mirrors_pure .nil
    | @cons arg arg' args args' harg hargs =>
      have hrest : ∀ here, Widens (connectAll limit d rate decls args >>= fun rest => pure (here ++ rest)) :=
        fun here => composes_widens.bind (widens_connectAll _ _) fun _ _ =>
          composes_widens.pure _
      have hhere : l.Mirrors limit (arg.leaves.mapM (connect limit d decl rate))
          (arg'.leaves.mapM (connect limit d decl rate)) (List.Forall₂ (Input.Twins l.Twin)) := by
        refine mirrors_mapM ?_ ?_ harg.leaves
        · exact widens_connect
        · exact fun _ _ hleaf => mirrors_connect hleaf
      refine hhere.bind hrest fun here here' hhere => ?_
      refine (ih hargs).bind (fun _ => composes_widens.pure _) fun rest rest' hrest => ?_
      exact mirrors_pure (List.rel_append hhere hrest)

theorem resolveRate_of_twins {x y : Expansion} (hat : l.At x y) (h : List.Forall₂ (Signal.Twins l.Twin) args args')
    (hrate : x.resolveRate d args rule = .ok rate) : y.resolveRate d args' rule = .ok rate := by
  cases rule with
  | fixed r => exact hrate
  | follow primary =>
    simp only [resolveRate] at hrate ⊢
    cases harg : args[primary]? with
    | none =>
      rw [harg] at hrate
      cases hrate
    | some arg =>
      obtain ⟨arg', harg', htwins⟩ := exists_right_of_forall₂ h harg
      have hleaves := htwins.leaves
      rw [harg] at hrate
      rw [harg']
      cases hl : arg.leaves with
      | nil =>
        simp only [hl] at hrate
        cases hrate
      | cons leaf rest =>
        simp only [hl] at hrate
        rw [hl] at hleaves
        obtain ⟨leaf', rest', hleaf, -, hl'⟩ := List.forall₂_cons_left_iff.1 hleaves
        simp only [hl']
        cases hleaf with
        | const v => exact hrate
        | out hr => exact l.outputRate hat hr hrate
        | bundle hss => exact hrate

theorem mirrors_emit (h : List.Forall₂ (Signal.Twins l.Twin) args args') :
    l.Mirrors limit (emit limit d rule args) (emit limit d rule args')
      fun signal signal' => l.Tracked d.flags → signal.Twins l.Twin signal' := by
  unfold emit
  refine Mirrors.bind (Q := fun rate rate' => rate' = rate)
    (mirrors_check fun hat hrate => ⟨_, resolveRate_of_twins hat h hrate, rfl⟩) (fun rate => ?_) ?_
  · refine composes_widens.bind (widens_connectAll _ _) fun inputs _ => ?_
    exact composes_widens.bind (widens_push limit _) fun i _ => composes_widens.pure _
  · rintro rate _ rfl
    rw [leafCounts_of_twins h]
    refine (mirrors_connectAll h).bind (fun inputs => ?_) fun inputs inputs' hinputs => ?_
    · exact composes_widens.bind (widens_push limit _) fun i _ => composes_widens.pure _
    · refine (mirrors_push ⟨_, rfl, hinputs⟩).bind (fun i => composes_widens.pure _) fun i j hij => ?_
      exact mirrors_pure fun htracked => Signal.twins_ofOutputs (hij htracked) _

/-- By induction on the bundle layers that are left. -/
theorem mirrors_instantiate (h : List.Forall₂ (Signal.Twins l.Twin) args args') :
    l.Mirrors limit (instantiate limit d rule args) (instantiate limit d rule args')
      fun signal signal' => l.Tracked d.flags → signal.Twins l.Twin signal' := by
  induction hn : fanDepth d.inputs args using Nat.strongRecOn generalizing args args' with
  | ind n ih =>
    have hsingles : List.Forall₂ (Signal.Twins l.Twin) (singles d.inputs args) (singles d.inputs args') :=
      twins_singles h
    by_cases hlen : args.length = d.inputs.length
    · have hlen' : args'.length = d.inputs.length := h.length_eq ▸ hlen
      cases hwidth : d.fanWidth rule 0 d.inputs args with
      | error e =>
        rw [instantiate, if_pos hlen, fanOut_of_error hwidth]
        exact mirrors_throw
      | ok w =>
        obtain ⟨hw, hcarry⟩ := widest_of_fanWidth hwidth
        have hcarry' := carrying_of_twins hsingles hcarry
        have hw' := (widest_of_twins hsingles).trans hw
        cases w with
        | zero =>
          have hwidth' : d.fanWidth rule 0 d.inputs args' = .ok 0 := by rw [fanWidth_of_carrying hcarry', hw']
          rw [instantiate, if_pos hlen, fanOut_of_zero hwidth, instantiate, if_pos hlen', fanOut_of_zero hwidth']
          exact mirrors_emit h
        | succ w =>
          rw [instantiate_eq_mapM limit hlen hcarry hw, instantiate_eq_mapM limit hlen' hcarry' hw']
          have hchannel : ∀ i j : Nat, i = j → l.Mirrors limit (instantiate limit d rule (strip i d.inputs args))
              (instantiate limit d rule (strip j d.inputs args'))
              fun signal signal' => l.Tracked d.flags → signal.Twins l.Twin signal' := by
            rintro i _ rfl
            exact ih _ (hn ▸ fanDepth_strip_lt hwidth i) (twins_strip h i) rfl
          refine (mirrors_mapM (fun _ => widens_instantiate _) hchannel
            (List.forall₂_same.2 fun _ _ => rfl)).bind (fun _ => composes_widens.pure _) fun signals signals' hall => ?_
          exact mirrors_pure fun htracked => .bundle (hall.imp fun _ _ htwins => htwins htracked)
    · rw [instantiate, if_neg hlen]
      exact mirrors_throw

theorem mirrors_addAll {sum sum' : Signal} (hsum : sum.Twins l.Twin sum') {channels channels' : List Signal}
    (h : List.Forall₂ (Signal.Twins l.Twin) channels channels') :
    l.Mirrors limit (addAll limit rule sum channels) (addAll limit rule sum' channels') (Signal.Twins l.Twin) := by
  refine mirrors_foldlM (fun _ _ => widens_instantiate _) (fun _ _ _ _ hsum hchannel => ?_) h hsum
  exact (mirrors_instantiate (.cons hsum (.cons hchannel .nil))).imp fun _ _ htwins => htwins l.tracked_plain

/-- A plain generator, given twins. -/
theorem mirrors_script {g : Generator} (hplain : g.Plain) (h : List.Forall₂ (Signal.Twins l.Twin) args args') :
    l.Mirrors limit (perform limit (g.script rule args)) (perform limit (g.script rule args'))
      fun signal signal' => (g.hook = none → l.Tracked g.descriptor.flags) → signal.Twins l.Twin signal' := by
  rcases hplain with hnone | hmix
  · rw [perform_script_none hnone, perform_script_none hnone]
    exact (mirrors_instantiate h).imp fun _ _ htwins htracked => htwins (htracked hnone)
  · have hchannels : List.Forall₂ (Signal.Twins l.Twin) (args.flatMap Signal.channels)
        (args'.flatMap Signal.channels) := List.rel_flatMap h fun _ _ hs => hs.channels
    simp only [Generator.script, hmix, perform_mix]
    generalize args.flatMap Signal.channels = channels at hchannels ⊢
    generalize args'.flatMap Signal.channels = channels' at hchannels ⊢
    cases hchannels with
    | nil => exact mirrors_pure fun _ => .const .zero
    | cons hfirst hrest => exact (mirrors_addAll hfirst hrest).imp fun _ _ htwins _ => htwins

end Instances

end Lockstep

end SoundGraph
