import SoundGraph.Proofs.Expansion.Composed
import SoundGraph.Proofs.Expansion.Emission

/-! Where the nodes of a table come from. A script adds instances of the descriptors that it asks for, and
converters, whether its instances succeed or not: a failed instance may leave the converters that it no longer
needs, and a failed call the instances in front of the failure. What an instance reads is accepted at its
inputs, because a converter runs at the rate that it is made for. -/

namespace SoundGraph

open Expanding

namespace Expansion

/-- An input of an instance at `rate` may read this. -/
inductive Accepts (x : Expansion) (rate : Rate) (decl : InputDecl) : Input → Prop where
  | constant {c : Nat} {v : Sample} (h : x.constants.values[c]? = some v) : Accepts x rate decl (.constant c)
  | node {source : OutputRef} {actual : Rate} (hrate : x.outputRate source = .ok actual)
    (hdirect : ∀ required, decl.requirement.required rate = some required →
      coercion actual required = .direct) :
    Accepts x rate decl (.node source)

/-- The node at place `i` is a converter of an output that has to be converted, or an instance of a descriptor
that was asked for, its inputs wired. -/
inductive Added (asked : Descriptor → Prop) (x : Expansion) (i : Nat) : EmittedNode → Prop where
  | converter {source : OutputRef} {actual required : Rate} {name : String}
    (hrate : x.outputRate source = .ok actual) (hconvert : coercion actual required = .convert name) :
    Added asked x i (converter name required source)
  | stands {d : Descriptor} {rule : RateRule} {feed : List (List Signal)} {first : Nat} {node : EmittedNode}
    (hasked : asked d) (h : x.Stands first i d rule feed node) : Added asked x i node

/-- The table has grown by converters and by instances of descriptors that were asked for. -/
structure Gains (asked : Descriptor → Prop) (x x' : Expansion) : Prop where
  within : x.Within x'
  added : ∀ i node, x.nodes.size ≤ i → x'.nodes[i]? = some node → x'.Added asked i node

variable {asked : Descriptor → Prop} {x x' : Expansion} {i n m : Nat} {rate : Rate} {decl : InputDecl}
  {node : EmittedNode}

theorem coercion_self (rate : Rate) : coercion rate rate = .direct := if_pos rfl

theorem outputRate_converter {name : String} {required : Rate} {source : OutputRef}
    (h : x.nodes[i]? = some (converter name required source)) : x.outputRate ⟨i, 0⟩ = .ok required := by
  simp only [outputRate, h]
  rfl

theorem Wired.accepts {leaf : Signal} {input : Input} (h : x.Wired n rate decl leaf input) :
    x.Accepts rate decl input := by
  cases h with
  | constant h => exact .constant h
  | direct hrate hdirect => exact .node hrate hdirect
  | @converted source actual required name j hrate hrequired hconvert hfirst hnode =>
    refine .node (outputRate_converter hnode) fun required' hrequired' => ?_
    obtain rfl := Option.some.inj (hrequired.symm.trans hrequired')
    exact coercion_self required

theorem Stands.accepts {d : Descriptor} {rule : RateRule} {feed : List (List Signal)}
    (h : x.Stands n m d rule feed node) :
    List.Forall₂ (fun port input => x.Accepts node.rate port.1 input) (ports d.inputs feed) node.inputs :=
  h.inputs.wired.imp fun _ _ hwired => hwired.accepts

theorem Added.within (h : x.Added asked i node) (hw : x.Within x') : x'.Added asked i node := by
  cases h with
  | converter hrate hconvert => exact .converter (hw.outputRate hrate) hconvert
  | stands hasked h => exact .stands hasked (h.within hw)

theorem Added.pure (h : x.Added asked i node) (hasked : ∀ d, asked d → d.flags.pure = true) :
    node.flags.pure = true := by
  cases h with
  | converter => rfl
  | stands hd h => rw [h.flags, hasked _ hd]

theorem Gains.refl (x : Expansion) : x.Gains asked x := by
  refine ⟨.refl x, fun i node hle hnode => ?_⟩
  have hlt := (Array.getElem?_eq_some_iff.1 hnode).1
  omega

theorem Gains.trans {y z : Expansion} (h : x.Gains asked y) (h' : y.Gains asked z) : x.Gains asked z := by
  refine ⟨h.within.trans h'.within, fun i node hle hnode => ?_⟩
  rcases Nat.lt_or_ge i y.nodes.size with hlt | hge
  · -- an old place still holds what it held
    have hold : y.nodes[i]? = some y.nodes[i] := Array.getElem?_eq_getElem hlt
    have hsame := getElem?_mono h'.within.nodes hold
    rw [hnode, Option.some.injEq] at hsame
    exact ((h.added i _ hle (hold.trans (congrArg some hsame.symm))).within h'.within)
  · exact h'.added i node hge hnode

theorem Connects.added {leaf : Signal} {input : Input} (h : x.Connects rate decl n leaf input m)
    (hle : n ≤ i) (hlt : i < m) (hnode : x.nodes[i]? = some node) : x.Added asked i node := by
  cases h with
  | constant h => omega
  | direct hrate hdirect => omega
  | converted hrate hrequired hconvert hplaced =>
    obtain rfl : i = n := by omega
    rw [hnode] at hplaced
    cases hplaced
    exact .converter hrate hconvert

theorem Wires.added {ports : List (InputDecl × Signal)} {inputs : List Input} (h : x.Wires rate n ports inputs m)
    (hle : n ≤ i) (hlt : i < m) (hnode : x.nodes[i]? = some node) : x.Added asked i node := by
  induction h with
  | nil n => omega
  | @cons decl leaf input ports inputs n k m h hrest ih =>
    rcases Nat.lt_or_ge i k with hik | hki
    · exact h.added hle hik hnode
    · exact ih hki hlt

end Expansion

namespace Expanding

open Expansion

variable {asked : Descriptor → Prop} {limit : Nat} {d : Descriptor} {rule : RateRule} {decl : InputDecl}
  {rate : Rate} {x x' : Expansion}

theorem composes_gains : Composes (Leads (Gains asked)) := composes_leads .refl fun _ _ _ => .trans

/-- A push that fails changes nothing. -/
theorem run_push_eq_error {node : EmittedNode} {e : Abort} (h : push limit node x = .error e x') : x' = x := by
  unfold push at h
  split at h <;> cases h
  rfl

/-- A leaf that cannot be connected adds nothing. -/
theorem run_connect_eq_error {leaf : Signal} {e : Abort} (h : connect limit d decl rate leaf x = .error e x') :
    x' = x := by
  cases leaf with
  | const v => cases h
  | bundle channels =>
    cases h
    rfl
  | out source =>
    rw [connect, connectOutput, run_bind_eq_error_iff] at h
    rcases h with h | ⟨actual, x₁, hcheck, h⟩
    · exact ((ensures_check _ x).of_error h).1
    obtain ⟨-, rfl⟩ := run_check_eq_ok_iff.1 hcheck
    cases hrequired : decl.requirement.required rate with
    | none =>
      simp only [hrequired] at h
      cases h
    | some required =>
      simp only [hrequired] at h
      cases hcoercion : coercion actual required with
      | direct =>
        simp only [hcoercion] at h
        cases h
      | convert name =>
        simp only [hcoercion, run_bind_eq_error_iff] at h
        rcases h with h | ⟨j, x₂, -, h⟩
        · exact run_push_eq_error h
        · cases h
      | impossible =>
        simp only [hcoercion] at h
        cases h
        rfl

theorem leads_connect_gains (leaf : Signal) : (connect limit d decl rate leaf).Leads (Gains asked) := by
  intro x
  refine (ensures_self _ x).imp (fun input x' h => ?_) fun e x' h => ?_
  · obtain ⟨hw, hconnects⟩ := connects_connect h
    refine ⟨hw, fun i node hle hnode => ?_⟩
    exact hconnects.added hle (Array.getElem?_eq_some_iff.1 hnode).1 hnode
  · rw [run_connect_eq_error h]
    exact .refl x

theorem leads_connectAll_gains (decls : List InputDecl) (args : List Signal) :
    (connectAll limit d rate decls args).Leads (Gains asked) := by
  induction decls generalizing args with
  | nil => exact composes_gains.pure []
  | cons decl decls ih =>
    cases args with
    | nil => exact composes_gains.pure []
    | cons arg args =>
      refine composes_gains.bind (composes_gains.mapM fun leaf _ => leads_connect_gains leaf) fun here _ => ?_
      exact composes_gains.bind (ih args) fun rest _ => composes_gains.pure (here ++ rest)

/-- The instance comes last; if there is none, nothing or some of its converters come. -/
theorem leads_emit_gains (hasked : asked d) (args : List Signal) :
    (emit limit d rule args).Leads (Gains asked) := by
  intro x
  refine (ensures_self _ x).imp (fun result x' h => ?_) fun e x' h => ?_
  · obtain ⟨i, node, -, hlast, hw, hstands⟩ := stands_emit h
    refine ⟨hw, fun j node' hle hnode => ?_⟩
    have hlt := (Array.getElem?_eq_some_iff.1 hnode).1
    rcases Nat.lt_or_ge j i with hji | hij
    · exact hstands.inputs.added hle hji hnode
    · obtain rfl : j = i := by omega
      obtain rfl := Option.some.inj (hnode.symm.trans hstands.place)
      exact .stands hasked hstands
  · rw [emit, run_bind_eq_error_iff] at h
    rcases h with h | ⟨rate, x₁, hcheck, h⟩
    · exact (leads_check .refl _ x).of_error h
    obtain ⟨-, rfl⟩ := run_check_eq_ok_iff.1 hcheck
    rw [run_bind_eq_error_iff] at h
    rcases h with h | ⟨inputs, x₂, hinputs, h⟩
    · exact (leads_connectAll_gains d.inputs args x₁).of_error h
    rw [run_bind_eq_error_iff] at h
    rcases h with h | ⟨j, x₃, -, h⟩
    · rw [run_push_eq_error h]
      exact (leads_connectAll_gains d.inputs args x₁).of_ok hinputs
    · cases h

theorem leads_perform_gains {script : Script} (h : ∀ d, script.AsksFor d → asked d) :
    (perform limit script).Leads (Gains asked) :=
  leads_perform .refl (fun _ _ _ => .trans) fun d hd _ =>
    leads_instantiate .refl (fun _ _ _ => .trans) (leads_emit_gains (h d hd))

section Widens

variable {α : Type}

def Widens (act : Expanding α) : Prop := ∀ x a x', act x = .ok a x' → x.Within x'

theorem composes_widens : Composes Widens := by
  refine ⟨fun a x a' x' h => ?_, fun h hf x b x' hok => ?_⟩
  · cases h
    exact .refl x
  · obtain ⟨a, x₁, hact, hrest⟩ := run_bind_eq_ok_iff.1 hok
    exact (h x a x₁ hact).trans (hf a ⟨x, x₁, hact⟩ x₁ b x' hrest)

theorem widens_throw (e : Abort) : (throw e : Expanding α).Widens := fun _ _ _ h => by cases h

theorem widens_check (f : Expansion → Except CompileError α) : (check f).Widens := by
  intro x a x' h
  obtain ⟨-, rfl⟩ := run_check_eq_ok_iff.1 h
  exact .refl _

theorem widens_push (limit : Nat) (node : EmittedNode) : (push limit node).Widens := by
  intro x i x' h
  obtain ⟨rfl, rfl⟩ := run_push_eq_ok h
  exact x.within_push node

theorem widens_connect (leaf : Signal) : (connect limit d decl rate leaf).Widens :=
  fun _ _ _ h => (connects_connect h).1

theorem widens_connectAll (decls : List InputDecl) (args : List Signal) :
    (connectAll limit d rate decls args).Widens :=
  fun _ _ _ h => (wires_connectAll h).1

theorem widens_instantiate {rule : RateRule} (args : List Signal) : (instantiate limit d rule args).Widens := by
  intro x result x' h
  have hgains : (instantiate limit d rule args).Leads (Gains fun _ => True) :=
    leads_instantiate .refl (fun _ _ _ => .trans) (leads_emit_gains trivial) args
  exact ((hgains x).of_ok h).within

theorem widens_perform (script : Script) : (perform limit script).Widens := by
  intro x result x' h
  have hgains : (perform limit script).Leads (Gains fun _ => True) := leads_perform_gains fun _ _ => trivial
  exact ((hgains x).of_ok h).within

end Widens

end Expanding

end SoundGraph
