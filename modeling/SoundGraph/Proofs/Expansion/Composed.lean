import SoundGraph.Proofs.Expansion.Arguments
import SoundGraph.Proofs.Expansion.Outcome

/-! Actions are put together from smaller ones, and much of what holds of them holds because sequences keep
it. Such a property need only be shown of the single steps: it then holds of lists of actions, of calls with
all their instances and, if it is about the expansions before and after, of scripts. -/

namespace SoundGraph

/-- Depending on what it hears, the script asks for an instance of `d`. -/
inductive Script.AsksFor (d : Descriptor) : Script → Prop where
  | here {rule : RateRule} {args : List Signal} {next : Except CompileError Signal → Script} :
    AsksFor d (.instantiate d rule args next)
  | later {d' : Descriptor} {rule : RateRule} {args : List Signal} {next : Except CompileError Signal → Script}
    (result : Except CompileError Signal) (h : AsksFor d (next result)) :
    AsksFor d (.instantiate d' rule args next)
  | rateOf {signal : Signal} {next : Option Rate → Script} (rate : Option Rate) (h : AsksFor d (next rate)) :
    AsksFor d (.rateOf signal next)
  | nodeCount {next : Nat → Script} (n : Nat) (h : AsksFor d (next n)) : AsksFor d (.nodeCount next)

namespace Expanding

variable {α β : Type}

def Answers (act : Expanding α) (a : α) : Prop := ∃ x x', act x = .ok a x'

/-- A property of actions that a sequence has if its parts have it. -/
structure Composes (C : ∀ {α : Type}, Expanding α → Prop) : Prop where
  pure : ∀ {α : Type} (a : α), C (Pure.pure a : Expanding α)
  bind : ∀ {α β : Type} {act : Expanding α} {f : α → Expanding β}, C act → (∀ a, act.Answers a → C (f a)) →
    C (act >>= f)

section Composes

variable {C : ∀ {α : Type}, Expanding α → Prop}

theorem Composes.mapM (h : Composes C) {f : α → Expanding β} {as : List α} (hf : ∀ a ∈ as, C (f a)) :
    C (as.mapM f) := by
  induction as with
  | nil => exact h.pure []
  | cons a as ih =>
    rw [List.mapM_cons]
    obtain ⟨ha, has⟩ := List.forall_mem_cons.1 hf
    exact h.bind ha fun b _ => h.bind (ih has) fun bs _ => h.pure (b :: bs)

theorem Composes.foldlM (h : Composes C) {f : β → α → Expanding β} (hf : ∀ b a, C (f b a)) (as : List α) (b : β) :
    C (as.foldlM f b) := by
  induction as generalizing b with
  | nil => exact h.pure b
  | cons a as ih =>
    rw [List.foldlM_cons]
    exact h.bind (hf b a) fun b' _ => ih b'

theorem Composes.forM (h : Composes C) {f : α → Expanding Unit} (hf : ∀ a, C (f a)) (as : List α) :
    C (as.forM f) := by
  induction as with
  | nil => exact h.pure ()
  | cons a as ih =>
    change C (f a >>= fun _ => as.forM f)
    exact h.bind (hf a) fun _ _ => ih

end Composes

section FanOut

variable {limit : Nat} {d : Descriptor} {rule : RateRule} {args : List Signal}

theorem fanOut_of_error {e : CompileError} (h : d.fanWidth rule 0 d.inputs args = .error e) :
    fanOut limit d rule args = reject e := by
  rw [fanOut]
  split <;> simp_all

theorem fanOut_of_zero (h : d.fanWidth rule 0 d.inputs args = .ok 0) :
    fanOut limit d rule args = emit limit d rule args := by
  rw [fanOut]
  split <;> simp_all

def fanOutAt (limit : Nat) (d : Descriptor) (rule : RateRule) (args : List Signal) (i : Nat) :
    Expanding Signal :=
  match channelArgs i (supplies d.inputs args) with
  | .error f => fault f
  | .ok cs => fanOut limit d rule cs

theorem fanOut_of_succ {w : Nat} (h : d.fanWidth rule 0 d.inputs args = .ok (w + 1)) :
    fanOut limit d rule args = do
      let channels ← (List.range (w + 1)).mapM (fanOutAt limit d rule args)
      return .bundle channels := by
  rw [fanOut]
  split
  · simp_all
  · simp_all
  · next w' h' =>
    rw [h] at h'
    cases h'
    dsimp only
    congr 2
    funext i
    unfold fanOutAt
    split <;> simp_all

/-- A call that has a width asks for no channel that is not there. -/
theorem fanOutAt_eq {w : Nat} (h : d.fanWidth rule 0 d.inputs args = .ok w) (i : Nat) :
    fanOutAt limit d rule args i = fanOut limit d rule (strip i d.inputs args) := by
  rw [fanOutAt, channelArgs_of_carrying (widest_of_fanWidth h).2]

/-- A call with bundles is a loop over its channels. -/
theorem instantiate_eq_mapM (limit : Nat) (hlen : args.length = d.inputs.length)
    (hcarry : Carrying (singles d.inputs args)) {w : Nat} (hw : widest (singles d.inputs args) = w + 1) :
    instantiate limit d rule args = do
      let channels ← (List.range (w + 1)).mapM fun i => instantiate limit d rule (strip i d.inputs args)
      return .bundle channels := by
  have hwidth : d.fanWidth rule 0 d.inputs args = .ok (w + 1) := by rw [fanWidth_of_carrying hcarry, hw]
  have hchannel : fanOutAt limit d rule args = fun i => instantiate limit d rule (strip i d.inputs args) := by
    funext i
    rw [fanOutAt_eq hwidth, instantiate, if_pos (length_strip i hlen)]
  rw [instantiate, if_pos hlen, fanOut_of_succ hwidth, hchannel]

/-- A call has what its instances have. By induction on the bundle layers that are left. -/
theorem Composes.fanOut {C : ∀ {α : Type}, Expanding α → Prop} (h : Composes C)
    (hreject : ∀ args e, d.fanWidth rule 0 d.inputs args = .error e → C (reject e : Expanding Signal))
    (hemit : ∀ args, C (emit limit d rule args)) (args : List Signal) : C (Expanding.fanOut limit d rule args) := by
  induction hn : fanDepth d.inputs args using Nat.strongRecOn generalizing args with
  | ind n ih =>
    cases hwidth : d.fanWidth rule 0 d.inputs args with
    | error e =>
      rw [fanOut_of_error hwidth]
      exact hreject args e hwidth
    | ok w =>
      cases w with
      | zero =>
        rw [fanOut_of_zero hwidth]
        exact hemit args
      | succ w =>
        rw [fanOut_of_succ hwidth]
        refine h.bind (h.mapM fun i _ => ?_) fun channels _ => h.pure _
        rw [fanOutAt_eq hwidth]
        exact ih _ (hn ▸ fanDepth_strip_lt hwidth i) _ rfl

end FanOut

/-- Whether it answers or stops, `act` leaves an expansion that `P` relates to the one it starts from. -/
def Leads (P : Expansion → Expansion → Prop) (act : Expanding α) : Prop :=
  ∀ x, act.Ensures x (fun _ x' => P x x') fun _ x' => P x x'

section Leads

variable {P : Expansion → Expansion → Prop}

theorem leads_pure (hrefl : ∀ x, P x x) (a : α) : (pure a : Expanding α).Leads P := hrefl

theorem leads_throw (hrefl : ∀ x, P x x) (e : Abort) : (throw e : Expanding α).Leads P := hrefl

theorem leads_check (hrefl : ∀ x, P x x) (f : Expansion → Except CompileError α) : (check f).Leads P := by
  intro x
  refine (ensures_check f x).imp ?_ ?_
  · rintro a x' ⟨rfl, -⟩
    exact hrefl x'
  · rintro e x' ⟨rfl, -⟩
    exact hrefl x'

theorem leads_bind (htrans : ∀ x y z, P x y → P y z → P x z) {act : Expanding α} {f : α → Expanding β}
    (h : act.Leads P) (hf : ∀ a, act.Answers a → (f a).Leads P) : (act >>= f).Leads P := by
  intro x
  refine (h x).bind_of_ok fun a y hok hxy => ?_
  exact (hf a ⟨x, y, hok⟩ y).imp (fun _ z => htrans x y z hxy) fun _ z => htrans x y z hxy

theorem composes_leads (hrefl : ∀ x, P x x) (htrans : ∀ x y z, P x y → P y z → P x z) :
    Composes (Leads P) :=
  ⟨leads_pure hrefl, leads_bind htrans⟩

theorem leads_instantiate (hrefl : ∀ x, P x x) (htrans : ∀ x y z, P x y → P y z → P x z) {limit : Nat}
    {d : Descriptor} {rule : RateRule} (hemit : ∀ args, (emit limit d rule args).Leads P) (args : List Signal) :
    (instantiate limit d rule args).Leads P := by
  unfold instantiate
  split
  · exact (composes_leads hrefl htrans).fanOut (fun _ e _ => leads_throw hrefl (.rejected e)) hemit args
  · exact leads_throw hrefl _

/-- Where a script goes on after a failed instance, it goes on from what that instance has left. -/
theorem leads_perform (hrefl : ∀ x, P x x) (htrans : ∀ x y z, P x y → P y z → P x z) {limit : Nat}
    {script : Script}
    (h : ∀ d, script.AsksFor d → ∀ rule args, (instantiate limit d rule args).Leads P) :
    (perform limit script).Leads P := by
  induction script with
  | done result =>
    cases result with
    | ok signal => exact leads_pure hrefl signal
    | error e => exact leads_throw hrefl (.rejected e)
  | instantiate d rule args next ih =>
    have hnext : ∀ result x₀ x, P x₀ x →
        (perform limit (next result)).Ensures x (fun _ x' => P x₀ x') fun _ x' => P x₀ x' := by
      intro result x₀ x hx
      have hlater := ih result fun d' hd' => h d' (.later result hd')
      exact (hlater x).imp (fun _ x' => htrans x₀ x x' hx) fun _ x' => htrans x₀ x x' hx
    intro x
    apply ensures_perform_instantiate
    refine (h d .here rule args x).imp (fun signal x₁ hx => hnext (.ok signal) x x₁ hx) fun e x₁ hx => ?_
    cases e with
    | rejected e => exact hnext (.error e) x x₁ hx
    | fault f => exact hx
  | rateOf signal next ih => exact fun x => ih (x.rateOf signal) (fun d hd => h d (.rateOf _ hd)) x
  | nodeCount next ih => exact fun x => ih x.nodes.size (fun d hd => h d (.nodeCount _ hd)) x

end Leads

end Expanding

end SoundGraph
