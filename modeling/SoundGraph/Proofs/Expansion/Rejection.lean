import SoundGraph.Mix
import SoundGraph.Proofs.Expansion.Composed

/-! The errors with which an instance can be rejected. They speak of its arguments, its rate and the node
limit, never of pending nodes: an instance that fails looks like no cycle and no missing definition, and a
mix passes on what its additions are rejected with. An instance has what its single steps have. -/

namespace SoundGraph

def CompileError.ofInstance : CompileError → Bool
  | arityMismatch .. | rateMismatch .. | unresolvedRate _ | emptyInput .. | invalidReference _
  | tooManyNodes _ => true
  | _ => false

theorem Expansion.outputRate_eq_error {x : Expansion} {source : OutputRef} {e : CompileError}
    (h : x.outputRate source = .error e) : e = .invalidReference source := by
  unfold outputRate at h
  split at h
  · cases h
    rfl
  · split at h <;> cases h
    rfl

theorem Expansion.ofInstance_outputRate {x : Expansion} {source : OutputRef} {e : CompileError}
    (h : x.outputRate source = .error e) : e.ofInstance = true := by
  rw [outputRate_eq_error h]
  rfl

theorem Expansion.ofInstance_resolveRate {x : Expansion} {d : Descriptor} {args : List Signal}
    {rule : RateRule} {e : CompileError} (h : x.resolveRate d args rule = .error e) :
    e.ofInstance = true := by
  unfold resolveRate at h
  split at h
  · cases h
  · split at h
    · cases h
      rfl
    · split at h
      · cases h
        rfl
      · exact ofInstance_outputRate h
      · cases h

theorem Descriptor.ofInstance_fanWidth {d : Descriptor} {rule : RateRule} {k : Nat}
    {inputs : List InputDecl} {args : List Signal} {e : CompileError}
    (h : d.fanWidth rule k inputs args = .error e) : e.ofInstance = true := by
  obtain ⟨j, input, -, -, -, rfl⟩ := exists_empty_of_fanWidth h
  unfold starved
  split <;> rfl

namespace Expanding

variable {α β : Type} {act : Expanding α} {f : α → Expanding β}

def RejectsInstance (act : Expanding α) : Prop :=
  ∀ x, act.Ensures x (fun _ _ => True) fun e _ => ∀ err, e = .rejected err → err.ofInstance = true

theorem rejectsInstance_pure (a : α) : (pure a : Expanding α).RejectsInstance := fun _ => trivial

theorem composes_rejectsInstance : Composes RejectsInstance :=
  ⟨rejectsInstance_pure, fun h hf x => (h x).bind_of_ok fun a x' hok _ => hf a ⟨x, x', hok⟩ x'⟩

theorem RejectsInstance.bind (h : act.RejectsInstance) (hf : ∀ a, (f a).RejectsInstance) :
    (act >>= f).RejectsInstance :=
  composes_rejectsInstance.bind h fun a _ => hf a

theorem rejectsInstance_reject {e : CompileError} (h : e.ofInstance = true) :
    (reject e : Expanding α).RejectsInstance :=
  fun _ _ heq => by cases heq; exact h

theorem rejectsInstance_check {f : Expansion → Except CompileError α}
    (h : ∀ x e, f x = .error e → e.ofInstance = true) : (check f).RejectsInstance := by
  intro x
  refine (ensures_check f x).imp (fun _ _ _ => trivial) ?_
  rintro _ _ ⟨-, err, rfl, herr⟩ _ heq
  cases heq
  exact h x err herr

theorem ensures_push (limit : Nat) (node : EmittedNode) (x : Expansion) :
    (push limit node).Ensures x (fun _ _ => True) fun e _ => e = .rejected (.tooManyNodes limit) := by
  unfold Ensures push
  by_cases hl : limit ≤ x.nodes.size
  · rw [if_pos hl]
  · rw [if_neg hl]
    trivial

theorem rejectsInstance_push (limit : Nat) (node : EmittedNode) : (push limit node).RejectsInstance := by
  intro x
  refine (ensures_push limit node x).imp (fun _ _ _ => trivial) ?_
  rintro _ _ rfl _ heq
  cases heq
  rfl

/-- A property of actions that the steps of an instance have, and a sequence if its parts have it. -/
structure Stepwise (limit : Nat) (C : ∀ {α : Type}, Expanding α → Prop) : Prop where
  composes : Composes C
  check : ∀ {α : Type} {f : Expansion → Except CompileError α},
    (∀ x e, f x = .error e → e.ofInstance = true) → C (check f)
  reject : ∀ {α : Type} {e : CompileError}, e.ofInstance = true → C (reject e : Expanding α)
  intern : ∀ v, C (intern v)
  push : ∀ node, C (push limit node)

section Stepwise

variable {C : ∀ {α : Type}, Expanding α → Prop} {limit : Nat}

theorem Stepwise.connect (h : Stepwise limit C) (d : Descriptor) (input : InputDecl) (rate : Rate) (s : Signal) :
    C (Expanding.connect limit d input rate s) := by
  cases s with
  | const v => exact h.composes.bind (h.intern v) fun _ _ => h.composes.pure _
  | bundle channels => exact h.reject rfl
  | out source =>
    refine h.composes.bind (h.check fun _ _ herr => Expansion.ofInstance_outputRate herr) fun actual _ => ?_
    split
    · exact h.composes.pure _
    · split
      · exact h.composes.pure _
      · exact h.composes.bind (h.push _) fun _ _ => h.composes.pure _
      · exact h.reject rfl

theorem Stepwise.connectAll (h : Stepwise limit C) (d : Descriptor) (rate : Rate) (inputs : List InputDecl)
    (args : List Signal) : C (Expanding.connectAll limit d rate inputs args) := by
  induction inputs generalizing args with
  | nil => exact h.composes.pure _
  | cons input inputs ih =>
    cases args with
    | nil => exact h.composes.pure _
    | cons arg args =>
      have hleaves := h.composes.mapM fun s (_ : s ∈ arg.leaves) => h.connect d input rate s
      exact h.composes.bind hleaves fun here _ => h.composes.bind (ih args) fun rest _ => h.composes.pure _

theorem Stepwise.emit (h : Stepwise limit C) (d : Descriptor) (rule : RateRule) (args : List Signal) :
    C (Expanding.emit limit d rule args) := by
  refine h.composes.bind (h.check fun _ _ herr => Expansion.ofInstance_resolveRate herr) fun rate _ => ?_
  refine h.composes.bind (h.connectAll d rate d.inputs args) fun inputs _ => ?_
  exact h.composes.bind (h.push _) fun _ _ => h.composes.pure _

theorem Stepwise.instantiate (h : Stepwise limit C) (d : Descriptor) (rule : RateRule) (args : List Signal) :
    C (Expanding.instantiate limit d rule args) := by
  unfold Expanding.instantiate
  split
  · exact h.composes.fanOut (fun args e hwidth => h.reject (d.ofInstance_fanWidth hwidth)) (h.emit d rule) args
  · exact h.reject rfl

end Stepwise

theorem rejectsInstance_instantiate (limit : Nat) (d : Descriptor) (rule : RateRule)
    (args : List Signal) : (instantiate limit d rule args).RejectsInstance :=
  Stepwise.instantiate ⟨composes_rejectsInstance, rejectsInstance_check, rejectsInstance_reject,
    fun _ _ => trivial, rejectsInstance_push limit⟩ d rule args

/-- A script whose next step passes on the error of an instance. -/
theorem rejectsInstance_perform_instantiate {limit : Nat} {d : Descriptor} {rule : RateRule}
    {args : List Signal} {next : Except CompileError Signal → Script}
    (hok : ∀ signal, (perform limit (next (.ok signal))).RejectsInstance)
    (herror : ∀ e, e.ofInstance = true → (perform limit (next (.error e))).RejectsInstance) :
    (perform limit (.instantiate d rule args next)).RejectsInstance := by
  intro x
  refine ensures_perform_instantiate ((rejectsInstance_instantiate limit d rule args x).imp ?_ ?_)
  · exact fun signal x' _ => hok signal x'
  · intro e x' he
    cases e with
    | rejected e => exact herror e (he e rfl) x'
    | fault f => exact fun err heq => by cases heq

theorem rejectsInstance_addChannels (limit : Nat) (rule : RateRule) (sum : Signal)
    (channels : List Signal) : (perform limit (addChannels rule sum channels)).RejectsInstance := by
  induction channels generalizing sum with
  | nil => exact rejectsInstance_pure _
  | cons channel rest ih =>
    exact rejectsInstance_perform_instantiate (fun signal => ih signal) fun e he =>
      rejectsInstance_reject he

theorem rejectsInstance_mix (limit : Nat) (rule : RateRule) (args : List Signal) :
    (perform limit (mix rule args)).RejectsInstance := by
  unfold mix
  split
  · exact rejectsInstance_pure _
  · exact rejectsInstance_addChannels limit _ _ _

end Expanding

/-- A generator without a hook, or with the mix. -/
def Generator.Plain (g : Generator) : Prop := g.hook = none ∨ g.hook = some mix

theorem Generator.Plain.rejectsInstance {g : Generator} (h : g.Plain) (limit : Nat) (rule : RateRule)
    (args : List Signal) : (Expanding.perform limit (g.script rule args)).RejectsInstance := by
  unfold Generator.script
  rcases h with h | h
  · rw [h]
    exact Expanding.rejectsInstance_perform_instantiate (fun signal => Expanding.rejectsInstance_pure _)
      fun e he => Expanding.rejectsInstance_reject he
  · rw [h]
    exact Expanding.rejectsInstance_mix limit rule args

end SoundGraph
