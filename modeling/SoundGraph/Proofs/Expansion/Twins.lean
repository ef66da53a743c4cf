import SoundGraph.Proofs.Expansion.Composed

/-! Signals and inputs that differ in node numbers only. A relation between numbers says which node of one table
stands for which node of another; signals are twins if they are alike up to these numbers. Twin arguments have the
same widths, so they fan out alike, and their channels and leaves are twins again. -/

namespace SoundGraph

def OutputRef.Twins (twin : Nat → Nat → Prop) (r r' : OutputRef) : Prop :=
  twin r.node r'.node ∧ r'.output = r.output

inductive Input.Twins (twin : Nat → Nat → Prop) : Input → Input → Prop where
  | constant (c : Nat) : Twins twin (.constant c) (.constant c)
  | node {r r' : OutputRef} (h : r.Twins twin r') : Twins twin (.node r) (.node r')

/-- The same node, reading twins. -/
def EmittedNode.Twins (twin : Nat → Nat → Prop) (n n' : EmittedNode) : Prop :=
  ∃ inputs, n' = { n with inputs } ∧ List.Forall₂ (Input.Twins twin) n.inputs inputs

inductive Signal.Twins (twin : Nat → Nat → Prop) : Signal → Signal → Prop where
  | const (v : Sample) : Twins twin (.const v) (.const v)
  | out {r r' : OutputRef} (h : r.Twins twin r') : Twins twin (.out r) (.out r')
  | bundle {ss ss' : List Signal} (h : List.Forall₂ (Twins twin) ss ss') : Twins twin (.bundle ss) (.bundle ss')

variable {twin : Nat → Nat → Prop}

namespace Signal

theorem Twins.refl (h : ∀ i, twin i i) (s : Signal) : s.Twins twin s := by
  induction s using Signal.induction with
  | const v => exact .const v
  | out r => exact .out ⟨h r.node, rfl⟩
  | bundle ss ih => exact .bundle (List.forall₂_same.2 ih)

theorem Twins.leaves {s s' : Signal} (h : s.Twins twin s') : List.Forall₂ (Twins twin) s.leaves s'.leaves := by
  induction s using Signal.induction generalizing s' with
  | const v =>
    cases h
    exact .cons (.const v) .nil
  | out r =>
    cases h with
    | out h => exact .cons (.out h) .nil
  | bundle ss ih =>
    cases h with
    | @bundle _ ss' h =>
      rw [Signal.leaves, Signal.leaves, leavesOf_eq, leavesOf_eq]
      induction h with
      | nil => exact .nil
      | cons hs _ ihs =>
        obtain ⟨hhead, hrest⟩ := List.forall_mem_cons.1 ih
        exact List.rel_append (hhead hs) (ihs hrest)

theorem Twins.channels {s s' : Signal} (h : s.Twins twin s') : List.Forall₂ (Twins twin) s.channels s'.channels := by
  cases h with
  | const v => exact .cons (.const v) .nil
  | out h => exact .cons (.out h) .nil
  | bundle h => exact h

theorem Twins.layerWidth_eq {s s' : Signal} (h : s.Twins twin s') : s'.layerWidth = s.layerWidth := by
  cases h with
  | const v => rfl
  | out h => rfl
  | bundle h => exact h.length_eq.symm

theorem Twins.channel {s s' : Signal} (h : s.Twins twin s') (i : Nat) :
    (s.channel i).Twins twin (s'.channel i) := by
  cases h with
  | const v => exact .const v
  | out h => exact .out h
  | @bundle ss ss' h =>
    rw [Signal.channel, Signal.channel, ← h.length_eq]
    cases hs : ss[i % ss.length]? with
    | none =>
      rw [List.getElem?_eq_none_iff] at hs
      rw [List.getElem?_eq_none (h.length_eq ▸ hs)]
      exact .bundle h
    | some c =>
      obtain ⟨c', hc', htwins⟩ := exists_right_of_forall₂ h hs
      rw [hc']
      exact htwins

theorem twins_ofOutputs {i j : Nat} (h : twin i j) (count : Nat) :
    (ofOutputs i count).Twins twin (ofOutputs j count) := by
  unfold ofOutputs
  split
  · exact .out ⟨h, rfl⟩
  · refine .bundle (List.forall₂_map_left_iff.2 (List.forall₂_map_right_iff.2 (List.forall₂_same.2 ?_)))
    exact fun slot _ => .out ⟨h, rfl⟩

end Signal

section Arguments

variable {decls : List InputDecl} {args args' : List Signal}

theorem twins_singles (h : List.Forall₂ (Signal.Twins twin) args args') :
    List.Forall₂ (Signal.Twins twin) (singles decls args) (singles decls args') := by
  induction decls generalizing args args' with
  | nil => exact .nil
  | cons decl decls ih =>
    cases h with
    | nil => exact .nil
    | cons harg hargs =>
      rw [singles, singles]
      split
      · exact ih hargs
      · exact .cons harg (ih hargs)

theorem twins_strip (h : List.Forall₂ (Signal.Twins twin) args args') (i : Nat) :
    List.Forall₂ (Signal.Twins twin) (strip i decls args) (strip i decls args') := by
  induction decls generalizing args args' with
  | nil => exact .nil
  | cons decl decls ih =>
    cases h with
    | nil => exact .nil
    | cons harg hargs =>
      refine .cons ?_ (ih hargs)
      dsimp only
      split
      · exact harg
      · exact harg.channel i

theorem widest_of_twins {ss ss' : List Signal} (h : List.Forall₂ (Signal.Twins twin) ss ss') :
    widest ss' = widest ss := by
  induction h with
  | nil => rfl
  | @cons s s' ss ss' hs _ ih =>
    change max s'.layerWidth (widest ss') = max s.layerWidth (widest ss)
    rw [hs.layerWidth_eq, ih]

theorem carrying_of_twins {ss ss' : List Signal} (h : List.Forall₂ (Signal.Twins twin) ss ss') (hss : Carrying ss) :
    Carrying ss' := by
  rintro s' hs' rfl
  obtain ⟨s, hs, htwins⟩ := exists_left_of_forall₂ h hs'
  cases htwins with
  | bundle h =>
    cases h
    exact hss _ hs rfl

/-- What each input receives is counted alike. -/
theorem leafCounts_of_twins (h : List.Forall₂ (Signal.Twins twin) args args') :
    args'.map (·.leaves.length) = args.map (·.leaves.length) := by
  induction h with
  | nil => rfl
  | cons hs _ ih => rw [List.map_cons, List.map_cons, ih, hs.leaves.length_eq]

end Arguments

end SoundGraph
