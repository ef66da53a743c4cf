import SoundGraph.Proofs.Expansion.Composed
import SoundGraph.Proofs.Expansion.Sound

/-! Whatever a script asks for, and whether it succeeds, a sound expansion stays sound and only grows.
Signals are not trusted for this: a hook may make one up, but no signal becomes an input before its rate
has been looked up. -/

namespace SoundGraph

def Expansion.GrowsTo (x x' : Expansion) : Prop := x.Sound → x.Grown x'

theorem Expansion.GrowsTo.refl (x : Expansion) : x.GrowsTo x := Grown.refl

theorem Expansion.GrowsTo.trans {x y z : Expansion} (h : x.GrowsTo y) (h' : y.GrowsTo z) : x.GrowsTo z :=
  fun hx => (h hx).trans (h' (h hx).sound)

namespace Expanding

variable {α β : Type}

/-- Run on a sound `x`, `act` leaves a grown expansion, and an answer with `Q` if it answers. -/
def Grows (act : Expanding α) (x : Expansion) (Q : α → Expansion → Prop) : Prop :=
  x.Sound → act.Ensures x (fun a x' => x.Grown x' ∧ Q a x') fun _ x' => x.Grown x'

variable {act : Expanding α} {f : α → Expanding β} {x : Expansion}
  {Q : α → Expansion → Prop} {R : β → Expansion → Prop}

/-- Growth counted from an expansion before the one that `act` starts from. -/
theorem Grows.after {x₀ : Expansion} (h : act.Grows x Q) (hg : x₀.Grown x) :
    act.Ensures x (fun a x' => x₀.Grown x' ∧ Q a x') fun _ x' => x₀.Grown x' :=
  (h hg.sound).imp (fun _ _ ⟨hg', hq⟩ => ⟨hg.trans hg', hq⟩) fun _ _ hg' => hg.trans hg'

theorem Grows.bind (h : act.Grows x Q) (hf : ∀ a x', x.Grown x' → Q a x' → (f a).Grows x' R) :
    (act >>= f).Grows x R := by
  intro hx
  exact (h hx).bind fun a x' ⟨hg, hq⟩ => (hf a x' hg hq).after hg

theorem Grows.imp {Q' : α → Expansion → Prop} (h : act.Grows x Q) (hQ : ∀ a x', Q a x' → Q' a x') :
    act.Grows x Q' :=
  fun hx => (h hx).imp (fun a x' ⟨hg, hq⟩ => ⟨hg, hQ a x' hq⟩) fun _ _ hg => hg

theorem grows_pure {a : α} (h : Q a x) : (pure a : Expanding α).Grows x Q :=
  fun hx => ⟨.refl hx, h⟩

theorem grows_throw (e : Abort) : (throw e : Expanding α).Grows x Q := fun hx => .refl hx

theorem grows_check (f : Expansion → Except CompileError α) :
    (check f).Grows x fun a x' => x' = x ∧ f x = .ok a := by
  intro hx
  unfold Ensures check
  cases h : f x with
  | ok a => exact ⟨.refl hx, rfl, rfl⟩
  | error e => exact .refl hx

/-- Answers that stay good while the expansion grows stay good along a list of actions. -/
theorem grows_mapM {f : α → Expanding β} {as : List α}
    (hstable : ∀ b x x', R b x → x.Grown x' → R b x') (hstep : ∀ a ∈ as, ∀ x, (f a).Grows x R)
    (x : Expansion) : (as.mapM f).Grows x fun bs x' => ∀ b ∈ bs, R b x' := by
  induction as generalizing x with
  | nil => exact grows_pure (List.forall_mem_nil _)
  | cons a as ih =>
    rw [List.mapM_cons]
    refine (hstep a List.mem_cons_self x).bind fun b x₁ _ hb => ?_
    refine (ih (fun a' ha' => hstep a' (List.mem_cons_of_mem _ ha')) x₁).bind fun bs x₂ hg hbs => ?_
    exact grows_pure (List.forall_mem_cons.2 ⟨hstable b x₁ x₂ hb hg, hbs⟩)

theorem grows_push (limit : Nat) {node : EmittedNode}
    (hin : ∀ input ∈ node.inputs, x.Readable input) :
    (push limit node).Grows x fun i x' => x'.nodes[i]? = some node := by
  intro hx
  unfold Ensures push
  by_cases hl : limit ≤ x.nodes.size
  · rw [if_pos hl]
    exact .refl hx
  · rw [if_neg hl]
    exact ⟨Expansion.grown_push hx hin, Array.getElem?_push_size⟩

theorem grows_intern (v : Sample) :
    (intern v).Grows x fun i x' => x'.constants.values[i]? = some v :=
  fun hx => ⟨Expansion.grown_intern hx v, x.constants.getElem?_intern v⟩

theorem grows_connectOutput (limit : Nat) (d : Descriptor) (input : InputDecl) (rate : Rate)
    (source : OutputRef) :
    (connectOutput limit d input rate source).Grows x fun i x' => x'.Readable i := by
  unfold connectOutput
  refine (grows_check _).bind fun actual x₁ _ h => ?_
  obtain ⟨rfl, hrate⟩ := h
  have hout := Expansion.hasOutput_of_outputRate hrate
  split
  · exact grows_pure hout
  · next required _ =>
    split
    · exact grows_pure hout
    · next name _ =>
      refine (grows_push limit fun i hi => ?_).bind fun index x₂ _ h => ?_
      · rw [converter, List.mem_singleton] at hi
        rw [hi]
        exact hout
      · exact grows_pure ⟨_, h, Nat.zero_lt_one⟩
    · exact grows_throw _

theorem grows_connect (limit : Nat) (d : Descriptor) (input : InputDecl) (rate : Rate) (s : Signal) :
    (connect limit d input rate s).Grows x fun i x' => x'.Readable i := by
  cases s with
  | const v =>
    exact (grows_intern v).bind fun i x₁ _ h => grows_pure (Array.getElem?_eq_some_iff.1 h).1
  | out source => exact grows_connectOutput limit d input rate source
  | bundle channels => exact grows_throw _

theorem grows_connectAll (limit : Nat) (d : Descriptor) (rate : Rate) (inputs : List InputDecl)
    (args : List Signal) :
    (connectAll limit d rate inputs args).Grows x fun is x' => ∀ i ∈ is, x'.Readable i := by
  induction inputs generalizing args x with
  | nil => exact grows_pure (List.forall_mem_nil _)
  | cons input inputs ih =>
    cases args with
    | nil => exact grows_pure (List.forall_mem_nil _)
    | cons arg args =>
      refine (grows_mapM (fun i x x' h hg => h.within hg.toWithin)
        (fun s _ x => grows_connect limit d input rate s) x).bind fun here x₁ _ hhere => ?_
      refine (ih args).bind fun rest x₂ hg hrest => grows_pure fun i hi => ?_
      rcases List.mem_append.1 hi with hi | hi
      · exact (hhere i hi).within hg.toWithin
      · exact hrest i hi

theorem grows_emit (limit : Nat) (d : Descriptor) (rule : RateRule) (args : List Signal) :
    (emit limit d rule args).Grows x fun _ _ => True := by
  unfold emit
  refine (grows_check _).bind fun rate x₁ _ _ => ?_
  refine (grows_connectAll limit d rate d.inputs args).bind fun inputs x₂ _ hin => ?_
  exact (grows_push limit hin).bind fun index x₃ _ _ => grows_pure trivial

theorem Grows.leads (h : ∀ x, act.Grows x fun _ _ => True) : act.Leads Expansion.GrowsTo := by
  intro x
  unfold Ensures
  cases hact : act x with
  | ok a x' => exact fun hx => ((h x hx).of_ok hact).1
  | error e x' => exact fun hx => (h x hx).of_error hact

theorem composes_growsTo : Composes (Leads Expansion.GrowsTo) :=
  composes_leads .refl fun _ _ _ => .trans

/-- Whichever instances it asks for, and whether it goes on where one of them fails. -/
theorem leads_perform_growsTo (limit : Nat) (script : Script) : (perform limit script).Leads Expansion.GrowsTo :=
  leads_perform .refl (fun _ _ _ => .trans) fun d _ rule =>
    leads_instantiate .refl (fun _ _ _ => .trans) fun args => Grows.leads fun _ => grows_emit limit d rule args

end Expanding

end SoundGraph
