import SoundGraph.Proofs.Expansion.Composed
import SoundGraph.Proofs.Expansion.Plain
import SoundGraph.Proofs.Sketch.Accepted
import SoundGraph.Proofs.Sketch.References
import SoundGraph.Proofs.Traversal.Origins
import SoundGraph.Proofs.Traversal.Resolution

/-! Elements that resolve to one signal whatever has been emitted by then: what they mention is done, and what
they refer to is a slot of a control, and a table keeps its controls while it grows. Channel by channel, such
elements resolve to the channels of their signals. -/

namespace SoundGraph

namespace Element

def channel (i : Nat) : Element → Element
  | bundle channels => channels[i % channels.length]?.getD (bundle channels)
  | e => e

def strip (i : Nat) (decls : List InputDecl) (args : List Element) : List Element :=
  List.zipWith (fun decl arg => if decl.variadic then arg else arg.channel i) decls args

theorem channel_mem {es : List Element} (h : es ≠ []) (i : Nat) : (bundle es).channel i ∈ es := by
  have hlt : i % es.length < es.length := Nat.mod_lt i (List.length_pos_iff.2 h)
  rw [channel, List.getElem?_eq_getElem hlt]
  exact List.getElem_mem hlt

theorem exists_of_mem_strip {i : Nat} {decls : List InputDecl} {args : List Element} {e : Element}
    (h : e ∈ strip i decls args) : ∃ arg ∈ args, e = arg ∨ e = arg.channel i := by
  induction decls generalizing args with
  | nil => cases h
  | cons decl decls ih =>
    cases args with
    | nil => cases h
    | cons arg args =>
      rcases List.mem_cons.1 h with rfl | h
      · refine ⟨arg, List.mem_cons_self, ?_⟩
        dsimp only
        split
        · exact .inl rfl
        · exact .inr rfl
      · obtain ⟨arg', harg, heq⟩ := ih h
        exact ⟨arg', List.mem_cons_of_mem _ harg, heq⟩

theorem length_strip (i : Nat) {decls : List InputDecl} {args : List Element} (h : args.length = decls.length) :
    (strip i decls args).length = decls.length := by
  rw [strip, List.length_zipWith, h, Nat.min_self]

theorem fault?_channel {known : Nat} {e : Element} (h : e.fault? known = none) (i : Nat) :
    (e.channel i).fault? known = none := by
  cases e with
  | bundle es =>
    obtain ⟨hne, hall⟩ := fault?_bundle_eq_none_iff.1 h
    exact hall _ (channel_mem hne i)
  | const v => exact h
  | out r => exact h
  | pending id => exact h

end Element

namespace Sketch

variable {s : Sketch} {p : Array Progress}

/-- On every table with the controls of the sketch, the element resolves to this signal. -/
def Settles (s : Sketch) (p : Array Progress) (e : Element) (signal : Signal) : Prop :=
  ∀ x, s.controlTable.Within x → s.resolve p x e = .ok signal

theorem HasSlot.outputRate {r : OutputRef} (h : s.HasSlot r) : ∃ rate, s.controlTable.outputRate r = .ok rate := by
  obtain ⟨g, hg, hslot⟩ := h
  refine ⟨g.rate, ?_⟩
  simp [Expansion.outputRate, controlTable, hg, controlNode, hslot]

theorem settles_bundle_iff {es : List Element} {signal : Signal} :
    s.Settles p (.bundle es) signal ↔ ∃ signals, signal = .bundle signals ∧ List.Forall₂ (s.Settles p) es signals := by
  constructor
  · intro h
    obtain ⟨signals, -, heq⟩ := bind_eq_ok_iff.1 (h s.controlTable (.refl _))
    cases heq
    refine ⟨signals, rfl, ?_⟩
    have hall : ∀ x, s.controlTable.Within x → List.Forall₂ (fun e v => s.resolve p x e = .ok v) es signals := by
      intro x hx
      obtain ⟨signals', hsignals, heq⟩ := bind_eq_ok_iff.1 (h x hx)
      cases heq
      rw [resolveAll_eq_mapM] at hsignals
      exact mapM_eq_ok_iff.1 hsignals
    simp only [List.forall₂_iff_get] at hall ⊢
    exact ⟨(hall _ (.refl _)).1, fun i hi hi' x hx => (hall x hx).2 i hi hi'⟩
  · rintro ⟨signals, rfl, hall⟩ x hx
    have hsignals : s.resolveAll p x es = .ok signals := by
      rw [resolveAll_eq_mapM, mapM_eq_ok_iff]
      exact hall.imp fun e v he => he x hx
    rw [resolve, hsignals]
    rfl

/-- What mentions done nodes and refers to slots only can always be resolved. -/
theorem exists_settles {e : Element} (hdone : ∀ j, e.Mentions j → ∃ v, p[j]? = some (.done v))
    (hslots : ∀ r, e.Refers r → s.HasSlot r) : ∃ signal, s.Settles p e signal := by
  induction e using Element.induction with
  | const v => exact ⟨.const v, fun x _ => rfl⟩
  | out r =>
    obtain ⟨rate, hrate⟩ := (hslots r .out).outputRate
    refine ⟨.out r, fun x hx => ?_⟩
    rw [resolve, hx.outputRate hrate]
    rfl
  | pending id =>
    obtain ⟨v, hv⟩ := hdone id .pending
    exact ⟨v, fun x _ => by rw [resolve, hv]⟩
  | bundle es ih =>
    have hall : ∀ e ∈ es, ∃ signal, s.Settles p e signal := fun e he =>
      ih e he (fun j hj => hdone j (.bundle he hj)) fun r hr => hslots r (.bundle he hr)
    obtain ⟨signals, hsignals⟩ := exists_forall₂_iff.2 hall
    exact ⟨.bundle signals, settles_bundle_iff.2 ⟨signals, rfl, hsignals⟩⟩

/-- A bundle and a leaf stay what they are; a pending node may become anything. -/
theorem Settles.channel {e : Element} {signal : Signal} (h : s.Settles p e signal) (he : ∀ id, e ≠ .pending id)
    (i : Nat) : s.Settles p (e.channel i) (signal.channel i) := by
  cases e with
  | pending id => exact absurd rfl (he id)
  | const v =>
    cases h s.controlTable (.refl _)
    exact h
  | out r =>
    obtain ⟨rate, -, heq⟩ := bind_eq_ok_iff.1 (h s.controlTable (.refl _))
    cases heq
    exact h
  | bundle es =>
    obtain ⟨signals, rfl, hall⟩ := settles_bundle_iff.1 h
    rw [Element.channel, Signal.channel, ← hall.length_eq]
    cases hget : es[i % es.length]? with
    | none =>
      have hnone : signals[i % es.length]? = none := by
        rw [List.getElem?_eq_none_iff] at hget ⊢
        rwa [← hall.length_eq]
      rwa [hnone]
    | some e =>
      obtain ⟨signal, hsignal, hsettles⟩ := exists_right_of_forall₂ hall hget
      rwa [hsignal]

section Arguments

variable {decls : List InputDecl} {args : List Element} {signals : List Signal} {n : Nat}

theorem settles_strip (h : List.Forall₂ (s.Settles p) args signals)
    (hplain : ∀ (k : Nat) decl e, decls[k]? = some decl → args[k]? = some e → decl.variadic = false →
      ∀ id, e ≠ .pending id) (i : Nat) :
    List.Forall₂ (s.Settles p) (Element.strip i decls args) (strip i decls signals) := by
  induction decls generalizing args signals with
  | nil => exact .nil
  | cons decl decls ih =>
    cases h with
    | nil => exact .nil
    | @cons e signal args signals he hargs =>
      refine .cons ?_ (ih hargs fun k => hplain (k + 1))
      dsimp only
      split
      · exact he
      · next hv => exact he.channel (hplain 0 decl e rfl rfl (by simpa using hv)) i

/-- A single-channel argument that is written as a bundle is as wide as it was written; another one is a leaf. -/
theorem Settles.width {e : Element} {signal : Signal} (h : s.Settles p e signal) (he : ∀ id, e ≠ .pending id) :
    (∃ es channels, e = .bundle es ∧ signal = .bundle channels ∧ channels.length = es.length) ∨
      (∀ es, e ≠ .bundle es) ∧ ∀ channels, signal ≠ .bundle channels := by
  cases e with
  | pending id => exact absurd rfl (he id)
  | const v =>
    cases h s.controlTable (.refl _)
    exact .inr ⟨fun _ h => (by cases h), fun _ h => by cases h⟩
  | out r =>
    obtain ⟨rate, -, heq⟩ := bind_eq_ok_iff.1 (h s.controlTable (.refl _))
    cases heq
    exact .inr ⟨fun _ h => (by cases h), fun _ h => by cases h⟩
  | bundle es =>
    obtain ⟨channels, rfl, hall⟩ := settles_bundle_iff.1 h
    exact .inl ⟨es, channels, rfl, rfl, hall.length_eq.symm⟩

end Arguments

section Loop

open Expanding Expansion

variable {limit : Nat} {g : Generator} {rule : RateRule} {args : List Element} {signals : List Signal} {x : Expansion}

theorem expandNode_of_settles (hhook : g.hook = none) (h : List.Forall₂ (s.Settles p) args signals)
    (hx : s.controlTable.Within x) :
    s.expandNode limit p ⟨g, rule, some args⟩ args x = instantiate limit g.descriptor rule signals x := by
  have hall : s.resolveAll p x args = .ok signals := by
    rw [resolveAll_eq_mapM, mapM_eq_ok_iff]
    exact h.imp fun e v he => he x hx
  simp only [expandNode, Bind.bind, EStateM.bind, check, hall]
  rw [perform_script_none hhook]

/-- A node with bundles is expanded like nodes for the single channels, one after the other. -/
theorem expandNode_eq_loop (hhook : g.hook = none) (hlen : args.length = g.descriptor.inputs.length)
    (h : List.Forall₂ (s.Settles p) args signals)
    (hplain : ∀ (k : Nat) decl e, g.descriptor.inputs[k]? = some decl → args[k]? = some e →
      decl.variadic = false → ∀ id, e ≠ .pending id)
    (hcarry : Carrying (singles g.descriptor.inputs signals)) {w : Nat}
    (hw : widest (singles g.descriptor.inputs signals) = w + 1) (hx : s.controlTable.Within x) :
    s.expandNode limit p ⟨g, rule, some args⟩ args x =
      (((List.range (w + 1)).map fun i => Element.strip i g.descriptor.inputs args).mapM
          (fun args => s.expandNode limit p ⟨g, rule, some args⟩ args) >>= fun values =>
        pure (.bundle values)) x := by
  rw [expandNode_of_settles hhook h hx, instantiate_eq_mapM limit (h.length_eq ▸ hlen) hcarry hw, List.mapM_map]
  refine run_bind_congr (Eq.symm ?_) fun _ _ _ => rfl
  refine run_mapM_congr (P := s.controlTable.Within) (fun i _ x hx => ⟨?_, fun b x' hb => ?_⟩) hx
  · exact expandNode_of_settles hhook (settles_strip h hplain i) hx
  · exact hx.trans (widens_instantiate _ _ _ _ hb)

end Loop

end Sketch

end SoundGraph
