import SoundGraph.Expansion

/-! Outcomes of expanding actions. Hooks see the errors of their instances and go on, so what a failed
action leaves behind matters as much as what a successful one does: `Ensures` speaks of both, and of the
expansion the action started from. -/

namespace SoundGraph.Expanding

variable {α β : Type}

/-- Started from `x`, `act` answers with `Q` or stops with `E`, each of the expansion it leaves. -/
def Ensures (act : Expanding α) (x : Expansion) (Q : α → Expansion → Prop)
    (E : Abort → Expansion → Prop) : Prop :=
  match act x with
  | .ok a x' => Q a x'
  | .error e x' => E e x'

variable {act : Expanding α} {f : α → Expanding β} {x : Expansion}
  {Q Q' : α → Expansion → Prop} {R : β → Expansion → Prop} {E E' : Abort → Expansion → Prop}

theorem Ensures.of_ok {a : α} {x' : Expansion} (h : act.Ensures x Q E) (hok : act x = .ok a x') :
    Q a x' := by
  rwa [Ensures, hok] at h

theorem Ensures.of_error {e : Abort} {x' : Expansion} (h : act.Ensures x Q E)
    (herr : act x = .error e x') : E e x' := by
  rwa [Ensures, herr] at h

/-- Where two actions come to the same outcome, one ensures what the other does. -/
theorem Ensures.of_eq {act' : Expanding α} {x' : Expansion} (h : act'.Ensures x' Q E)
    (heq : act x = act' x') : act.Ensures x Q E := by
  rwa [Ensures, heq]

theorem Ensures.imp (h : act.Ensures x Q E) (hQ : ∀ a x', Q a x' → Q' a x')
    (hE : ∀ e x', E e x' → E' e x') : act.Ensures x Q' E' := by
  unfold Ensures at *
  cases hact : act x with
  | ok a x' => rw [hact] at h; exact hQ a x' h
  | error e x' => rw [hact] at h; exact hE e x' h

theorem Ensures.bind_of_ok (h : act.Ensures x Q E)
    (hf : ∀ a x', act x = .ok a x' → Q a x' → (f a).Ensures x' R E) : (act >>= f).Ensures x R E := by
  unfold Ensures at *
  simp only [Bind.bind, EStateM.bind]
  cases hact : act x with
  | ok a x' => rw [hact] at h; exact hf a x' hact h
  | error e x' => rw [hact] at h; exact h

/-- What follows starts from whatever expansion the first action leaves with its answer. -/
theorem Ensures.bind (h : act.Ensures x Q E) (hf : ∀ a x', Q a x' → (f a).Ensures x' R E) :
    (act >>= f).Ensures x R E :=
  h.bind_of_ok fun a x' _ => hf a x'

theorem run_bind_eq_ok_iff {b : β} {x' : Expansion} :
    (act >>= f) x = .ok b x' ↔ ∃ a x₁, act x = .ok a x₁ ∧ f a x₁ = .ok b x' := by
  simp only [Bind.bind, EStateM.bind]
  cases act x with
  | ok a x₁ => exact ⟨fun h => ⟨a, x₁, rfl, h⟩, fun ⟨_, _, heq, h⟩ => by cases heq; exact h⟩
  | error e x₁ => simp

theorem run_bind_eq_error_iff {e : Abort} {x' : Expansion} :
    (act >>= f) x = .error e x' ↔
      act x = .error e x' ∨ ∃ a x₁, act x = .ok a x₁ ∧ f a x₁ = .error e x' := by
  simp only [Bind.bind, EStateM.bind]
  cases act x with
  | ok a x₁ =>
    refine ⟨fun h => .inr ⟨a, x₁, rfl, h⟩, fun h => ?_⟩
    rcases h with h | ⟨_, _, heq, h⟩
    · cases h
    · cases heq
      exact h
  | error e x₁ => simp

/-- What follows may differ where the first action does not come to. -/
theorem run_bind_congr {act' : Expanding α} {g : α → Expanding β} (hact : act x = act' x)
    (h : ∀ a x', act' x = .ok a x' → f a x' = g a x') : (act >>= f) x = (act' >>= g) x := by
  simp only [Bind.bind, EStateM.bind, hact]
  cases hres : act' x with
  | ok a x' => exact h a x' hres
  | error e x' => rfl

theorem run_mapM_cons_eq_ok_iff {a : α} {as : List α} {b : List β} {x' : Expansion} :
    (a :: as).mapM f x = .ok b x' ↔
      ∃ b₀ bs x₁, f a x = .ok b₀ x₁ ∧ as.mapM f x₁ = .ok bs x' ∧ b = b₀ :: bs := by
  rw [List.mapM_cons, run_bind_eq_ok_iff]
  constructor
  · rintro ⟨b₀, x₁, ha, h⟩
    obtain ⟨bs, x₂, has, h⟩ := run_bind_eq_ok_iff.1 h
    cases h
    exact ⟨b₀, bs, x₁, ha, has, rfl⟩
  · rintro ⟨b₀, bs, x₁, ha, has, rfl⟩
    exact ⟨b₀, x₁, ha, run_bind_eq_ok_iff.2 ⟨bs, x', has, rfl⟩⟩

/-- Steps that are alike where the run comes to. -/
theorem run_mapM_congr {P : Expansion → Prop} {g : α → Expanding β} {as : List α}
    (hstep : ∀ a ∈ as, ∀ x, P x → f a x = g a x ∧ ∀ b x', g a x = .ok b x' → P x') (hx : P x) :
    as.mapM f x = as.mapM g x := by
  induction as generalizing x with
  | nil => rfl
  | cons a as ih =>
    obtain ⟨ha, has⟩ := List.forall_mem_cons.1 hstep
    obtain ⟨hsame, hkeeps⟩ := ha x hx
    rw [List.mapM_cons, List.mapM_cons]
    refine run_bind_congr hsame fun b x' hb => ?_
    exact run_bind_congr (ih has (hkeeps b x' hb)) fun _ _ _ => rfl

theorem length_of_run_mapM {as : List α} {bs : List β} {x' : Expansion} (h : as.mapM f x = .ok bs x') :
    bs.length = as.length := by
  induction as generalizing x bs with
  | nil =>
    cases h
    rfl
  | cons a as ih =>
    obtain ⟨b, bs, x₁, -, hrest, rfl⟩ := run_mapM_cons_eq_ok_iff.1 h
    rw [List.length_cons, List.length_cons, ih hrest]

theorem run_mapM_append {as as' : List α} {bs bs' : List β} {x₁ x' : Expansion}
    (h : as.mapM f x = .ok bs x₁) (h' : as'.mapM f x₁ = .ok bs' x') :
    (as ++ as').mapM f x = .ok (bs ++ bs') x' := by
  rw [List.mapM_append]
  exact run_bind_eq_ok_iff.2 ⟨bs, x₁, h, run_bind_eq_ok_iff.2 ⟨bs', x', h', rfl⟩⟩

theorem run_check_eq_ok_iff {g : Expansion → Except CompileError α} {a : α} {x' : Expansion} :
    check g x = .ok a x' ↔ g x = .ok a ∧ x' = x := by
  unfold check
  cases g x <;> simp [eq_comm]

/-- An action ensures what it does. -/
theorem ensures_self (act : Expanding α) (x : Expansion) :
    act.Ensures x (fun a x' => act x = .ok a x') fun e x' => act x = .error e x' := by
  unfold Ensures
  cases act x <;> rfl

theorem ensures_check (f : Expansion → Except CompileError α) (x : Expansion) :
    (check f).Ensures x (fun a x' => x' = x ∧ f x = .ok a)
      fun e x' => x' = x ∧ ∃ err, e = .rejected err ∧ f x = .error err := by
  unfold Ensures check
  cases h : f x with
  | ok a => exact ⟨rfl, rfl⟩
  | error err => exact ⟨rfl, err, rfl, rfl⟩

/-- A script that emits an instance goes on from whatever the instance leaves, unless that is a fault. -/
theorem ensures_perform_instantiate {limit : Nat} {d : Descriptor} {rule : RateRule} {args : List Signal}
    {next : Except CompileError Signal → Script} {x : Expansion} {Q : Signal → Expansion → Prop}
    {E : Abort → Expansion → Prop}
    (h : (instantiate limit d rule args).Ensures x
      (fun signal x' => (perform limit (next (.ok signal))).Ensures x' Q E)
      fun e x' => match e with
        | .rejected e => (perform limit (next (.error e))).Ensures x' Q E
        | .fault f => E (.fault f) x') :
    (perform limit (.instantiate d rule args next)).Ensures x Q E := by
  cases hres : instantiate limit d rule args x with
  | ok signal x' => exact (h.of_ok hres).of_eq (by simp only [perform, hres])
  | error e x' =>
    have he := h.of_error hres
    cases e with
    | rejected e => exact he.of_eq (by simp only [perform, hres])
    | fault f =>
      unfold Ensures
      simp only [perform, hres]
      exact he

end SoundGraph.Expanding
