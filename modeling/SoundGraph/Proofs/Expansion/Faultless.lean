import SoundGraph.Proofs.Expansion.Rejection

/-! Where a script can stop. No instance reads a table out of range: a call that has a width has a channel for each
of its instances, and everything else is looked up. So a script stops only with an error, one that it ends in: it
passes on what its instances were rejected with, or it makes one up. -/

namespace SoundGraph

/-- Depending on what it hears, the script ends in the error. Of an instance it hears a signal, or an error about
that instance. -/
inductive Script.Raises (e : CompileError) : Script → Prop where
  | here : Raises e (.done (.error e))
  | answered {d : Descriptor} {rule : RateRule} {args : List Signal} {next : Except CompileError Signal → Script}
    (signal : Signal) (h : Raises e (next (.ok signal))) : Raises e (.instantiate d rule args next)
  | rejected {d : Descriptor} {rule : RateRule} {args : List Signal} {next : Except CompileError Signal → Script}
    {e' : CompileError} (hof : e'.ofInstance = true) (h : Raises e (next (.error e'))) :
    Raises e (.instantiate d rule args next)
  | rateOf {signal : Signal} {next : Option Rate → Script} (rate : Option Rate) (h : Raises e (next rate)) :
    Raises e (.rateOf signal next)
  | nodeCount {next : Nat → Script} (n : Nat) (h : Raises e (next n)) : Raises e (.nodeCount next)

/-- Without a hook, only an error about the instance comes out. -/
theorem Generator.ofInstance_of_raises {g : Generator} (hnone : g.hook = none) {rule : RateRule}
    {args : List Signal} {e : CompileError} (h : (g.script rule args).Raises e) : e.ofInstance = true := by
  rw [script, hnone] at h
  cases h with
  | answered signal h => cases h
  | rejected hof h =>
    cases h
    exact hof

namespace Expanding

variable {α : Type}

def Faultless (act : Expanding α) : Prop :=
  ∀ x, act.Ensures x (fun _ _ => True) fun e _ => ∃ err, e = .rejected err

theorem composes_faultless : Composes Faultless :=
  ⟨fun _ _ => trivial, fun h hf x => (h x).bind_of_ok fun a x' hok _ => hf a ⟨x, x', hok⟩ x'⟩

theorem faultless_check (f : Expansion → Except CompileError α) : (check f).Faultless := fun x =>
  (ensures_check f x).imp (fun _ _ _ => trivial) fun _ _ ⟨_, err, he, _⟩ => ⟨err, he⟩

theorem faultless_push (limit : Nat) (node : EmittedNode) : (push limit node).Faultless := fun x =>
  (ensures_push limit node x).imp (fun _ _ _ => trivial) fun _ _ he => ⟨_, he⟩

theorem faultless_instantiate (limit : Nat) (d : Descriptor) (rule : RateRule) (args : List Signal) :
    (instantiate limit d rule args).Faultless :=
  Stepwise.instantiate ⟨composes_faultless, fun _ => faultless_check _, fun _ _ => ⟨_, rfl⟩,
    fun _ _ => trivial, faultless_push limit⟩ d rule args

/-- By induction on what is left of the script, which goes on from a rejected instance. -/
theorem raises_of_perform {limit : Nat} {script : Script} {x x' : Expansion} {e : Abort}
    (h : perform limit script x = .error e x') : ∃ err, e = .rejected err ∧ script.Raises err := by
  induction script generalizing x with
  | done result =>
    cases result with
    | ok signal => cases h
    | error err =>
      cases h
      exact ⟨err, rfl, .here⟩
  | instantiate d rule args next ih =>
    cases hres : instantiate limit d rule args x with
    | ok signal x₁ =>
      simp only [perform, hres] at h
      obtain ⟨err, rfl, hraises⟩ := ih _ h
      exact ⟨err, rfl, .answered signal hraises⟩
    | error e₁ x₁ =>
      obtain ⟨err₁, rfl⟩ := (faultless_instantiate limit d rule args x).of_error hres
      have hof := (rejectsInstance_instantiate limit d rule args x).of_error hres err₁ rfl
      simp only [perform, hres] at h
      obtain ⟨err, rfl, hraises⟩ := ih _ h
      exact ⟨err, rfl, .rejected hof hraises⟩
  | rateOf signal next ih =>
    obtain ⟨err, rfl, hraises⟩ := ih _ h
    exact ⟨err, rfl, .rateOf _ hraises⟩
  | nodeCount next ih =>
    obtain ⟨err, rfl, hraises⟩ := ih _ h
    exact ⟨err, rfl, .nodeCount _ hraises⟩

end Expanding

end SoundGraph
