import SoundGraph.Proofs.Expansion.Plain
import SoundGraph.Proofs.Expansion.Rejection

/-! The node limit is a threshold. A push looks at the limit and at nothing else, and nothing but a push looks
at it; so an action has one outcome, which it comes to under every limit that the table left by that outcome
fits, and under every smaller limit it stops for the limit. A sequence keeps this, because a table never
shrinks: what stops its first part stops it, and where the first part fits the second one starts from the same
table. -/

namespace SoundGraph

def CompileError.ofLimit : CompileError → Bool
  | tooManyNodes _ => true
  | _ => false

theorem Expansion.ofLimit_outputRate {x : Expansion} {source : OutputRef} {e : CompileError}
    (h : x.outputRate source = .error e) : e.ofLimit = false := by
  rw [outputRate_eq_error h]
  rfl

theorem Expansion.ofLimit_resolveRate {x : Expansion} {d : Descriptor} {args : List Signal} {rule : RateRule}
    {e : CompileError} (h : x.resolveRate d args rule = .error e) : e.ofLimit = false := by
  unfold resolveRate at h
  split at h
  · cases h
  · split at h
    · cases h
      rfl
    · split at h
      · cases h
        rfl
      · exact ofLimit_outputRate h
      · cases h

namespace Expanding

variable {α β : Type}

def left : EStateM.Result Abort Expansion α → Expansion
  | .ok _ x => x
  | .error _ x => x

/-- Started from `x`, the action comes to `r` under every limit that the nodes left by `r` fit, and stops for the
limit under every smaller one. -/
structure ComesTo (act : Nat → Expanding α) (x : Expansion) (r : EStateM.Result Abort Expansion α) : Prop where
  grows : x.nodes.size ≤ (left r).nodes.size
  other : ∀ e x', r = .error (.rejected e) x' → e.ofLimit = false
  fits : ∀ limit, (left r).nodes.size ≤ limit → act limit x = r
  stops : ∀ limit, x.nodes.size ≤ limit → limit < (left r).nodes.size →
    ∃ x', act limit x = .error (.rejected (.tooManyNodes limit)) x'

/-- Wherever it starts, the action has an outcome that the limit does not change. -/
def Capped (act : Nat → Expanding α) : Prop := ∀ x, ∃ r, ComesTo act x r

/-- An action that knows no limit. -/
theorem capped_of_unlimited {act : Expanding α} (hleft : ∀ x, (left (act x)).nodes.size = x.nodes.size)
    (hother : ∀ x e x', act x = .error (.rejected e) x' → e.ofLimit = false) : Capped fun _ => act := by
  refine fun x => ⟨act x, Nat.le_of_eq (hleft x).symm, hother x, fun _ _ => rfl, fun limit hle hlt => ?_⟩
  rw [hleft x] at hlt
  omega

theorem capped_pure (a : α) : Capped fun _ => (pure a : Expanding α) :=
  capped_of_unlimited (fun _ => rfl) fun x e x' h => by cases h

theorem capped_fault (f : Fault) : Capped fun _ => (fault f : Expanding α) :=
  capped_of_unlimited (fun _ => rfl) fun x e x' h => by cases h

theorem capped_reject {e : CompileError} (he : e.ofLimit = false) : Capped fun _ => (reject e : Expanding α) :=
  capped_of_unlimited (fun _ => rfl) fun x e x' h => by
    cases h
    exact he

theorem capped_intern (v : Sample) : Capped fun _ => intern v :=
  capped_of_unlimited (fun _ => rfl) fun x e x' h => by cases h

theorem capped_check {f : Expansion → Except CompileError α} (hf : ∀ x e, f x = .error e → e.ofLimit = false) :
    Capped fun _ => check f := by
  refine capped_of_unlimited (fun x => ?_) fun x e x' h => ?_
  · unfold check
    cases f x <;> rfl
  · obtain ⟨-, err, heq, herr⟩ := (ensures_check f x).of_error h
    cases heq
    exact hf x e herr

/-- The one place that knows the limit. -/
theorem capped_push (node : EmittedNode) : Capped fun limit => push limit node := by
  intro x
  refine ⟨.ok x.nodes.size { x with nodes := x.nodes.push node }, ?_, ?_, fun limit hle => ?_,
    fun limit hle hlt => ⟨x, ?_⟩⟩
  · simp [left]
  · exact fun e x' h => by cases h
  · rw [left, Array.size_push] at hle
    rw [push, if_neg (by omega)]
  · rw [left, Array.size_push] at hlt
    rw [push, if_pos (by omega)]

theorem Capped.bind {act : Nat → Expanding α} {f : Nat → α → Expanding β} (h : Capped act)
    (hf : ∀ a, (∃ limit, (act limit).Answers a) → Capped fun limit => f limit a) :
    Capped fun limit => act limit >>= f limit := by
  intro x
  obtain ⟨r, hr⟩ := h x
  cases r with
  | error e x₁ =>
    refine ⟨.error e x₁, hr.grows, fun e' x' h => ?_, fun limit hle => ?_, fun limit hle hlt => ?_⟩
    · cases h
      exact hr.other e' x₁ rfl
    · simp only [Bind.bind, EStateM.bind, hr.fits limit hle]
    · obtain ⟨x', hstop⟩ := hr.stops limit hle hlt
      exact ⟨x', run_bind_eq_error_iff.2 (.inl hstop)⟩
  | ok a x₁ =>
    obtain ⟨r', hr'⟩ := hf a ⟨_, x, x₁, hr.fits _ (Nat.le_refl _)⟩ x₁
    refine ⟨r', Nat.le_trans hr.grows hr'.grows, hr'.other, fun limit hle => ?_, fun limit hle hlt => ?_⟩
    · have hfirst := hr.fits limit (Nat.le_trans hr'.grows hle)
      rw [← hr'.fits limit hle]
      simp only [Bind.bind, EStateM.bind, hfirst]
    · rcases Nat.lt_or_ge limit x₁.nodes.size with hless | hge
      · obtain ⟨x', hstop⟩ := hr.stops limit hle hless
        exact ⟨x', run_bind_eq_error_iff.2 (.inl hstop)⟩
      · obtain ⟨x', hstop⟩ := hr'.stops limit hge hlt
        exact ⟨x', run_bind_eq_error_iff.2 (.inr ⟨a, x₁, hr.fits limit hge, hstop⟩)⟩

theorem Capped.mapM {f : Nat → α → Expanding β} {as : List α} (hf : ∀ a ∈ as, Capped fun limit => f limit a) :
    Capped fun limit => as.mapM (f limit) := by
  induction as with
  | nil => exact capped_pure []
  | cons a as ih =>
    obtain ⟨ha, has⟩ := List.forall_mem_cons.1 hf
    simp only [List.mapM_cons]
    exact ha.bind fun b _ => (ih has).bind fun bs _ => capped_pure (b :: bs)

theorem Capped.foldlM {f : Nat → β → α → Expanding β} (hf : ∀ b a, Capped fun limit => f limit b a) (as : List α)
    (b : β) : Capped fun limit => as.foldlM (f limit) b := by
  induction as generalizing b with
  | nil => exact capped_pure b
  | cons a as ih =>
    simp only [List.foldlM_cons]
    exact (hf b a).bind fun b' _ => ih b'

theorem Capped.forM {f : Nat → α → Expanding Unit} (hf : ∀ a, Capped fun limit => f limit a) (as : List α) :
    Capped fun limit => as.forM (f limit) := by
  induction as with
  | nil => exact capped_pure ()
  | cons a as ih => exact (hf a).bind fun _ _ => ih

section Instances

variable (d : Descriptor) (rule : RateRule)

theorem capped_connect (decl : InputDecl) (rate : Rate) (leaf : Signal) :
    Capped fun limit => connect limit d decl rate leaf := by
  cases leaf with
  | const v => exact (capped_intern v).bind fun c _ => capped_pure (Input.constant c)
  | bundle channels => exact capped_reject rfl
  | out source =>
    refine (capped_check fun x e h => x.ofLimit_outputRate h).bind fun actual _ => ?_
    cases decl.requirement.required rate with
    | none => exact capped_pure (Input.node source)
    | some required =>
      dsimp only
      cases coercion actual required with
      | direct => exact capped_pure (Input.node source)
      | convert name => exact (capped_push _).bind fun index _ => capped_pure (Input.node ⟨index, 0⟩)
      | impossible => exact capped_reject rfl

theorem capped_connectAll (rate : Rate) (decls : List InputDecl) (args : List Signal) :
    Capped fun limit => connectAll limit d rate decls args := by
  induction decls generalizing args with
  | nil => exact capped_pure []
  | cons decl decls ih =>
    cases args with
    | nil => exact capped_pure []
    | cons arg args =>
      refine (Capped.mapM fun leaf _ => capped_connect d decl rate leaf).bind fun here _ => ?_
      exact (ih args).bind fun rest _ => capped_pure (here ++ rest)

theorem capped_emit (args : List Signal) : Capped fun limit => emit limit d rule args := by
  refine (capped_check fun x e h => x.ofLimit_resolveRate h).bind fun rate _ => ?_
  refine (capped_connectAll d rate d.inputs args).bind fun inputs _ => ?_
  exact (capped_push _).bind fun index _ => capped_pure _

theorem capped_instantiate (args : List Signal) : Capped fun limit => instantiate limit d rule args := by
  have hfan : Capped fun limit => fanOut limit d rule args := by
    induction hn : fanDepth d.inputs args using Nat.strongRecOn generalizing args with
    | ind n ih =>
      cases hwidth : d.fanWidth rule 0 d.inputs args with
      | error e =>
        simp only [fanOut_of_error hwidth]
        obtain ⟨j, input, -, -, -, rfl⟩ := exists_empty_of_fanWidth hwidth
        refine capped_reject ?_
        unfold Descriptor.starved
        split <;> rfl
      | ok w =>
        cases w with
        | zero =>
          simp only [fanOut_of_zero hwidth]
          exact capped_emit d rule args
        | succ w =>
          simp only [fanOut_of_succ hwidth]
          refine (Capped.mapM fun i _ => ?_).bind fun channels _ => capped_pure (Signal.bundle channels)
          simp only [fanOutAt_eq hwidth]
          exact ih _ (hn ▸ fanDepth_strip_lt hwidth i) _ rfl
  unfold instantiate
  split
  · exact hfan
  · exact capped_reject rfl

theorem capped_addAll (sum : Signal) (channels : List Signal) :
    Capped fun limit => addAll limit rule sum channels :=
  Capped.foldlM (fun sum channel => capped_instantiate adder rule [sum, channel]) channels sum

/-- A hook that looks at the number of nodes so far, or that hears of the limit, could make something of it. -/
theorem capped_script {g : Generator} (hplain : g.Plain) (args : List Signal) :
    Capped fun limit => perform limit (g.script rule args) := by
  rcases hplain with hnone | hmix
  · simp only [perform_script_none hnone]
    exact capped_instantiate g.descriptor rule args
  · simp only [Generator.script, hmix, perform_mix]
    cases args.flatMap Signal.channels with
    | nil => exact capped_pure _
    | cons first rest => exact capped_addAll (mixRule rule) first rest

end Instances

end Expanding

end SoundGraph
