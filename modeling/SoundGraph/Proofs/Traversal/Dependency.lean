import Mathlib.Data.Fintype.Pigeonhole
import Mathlib.Logic.Relation
import Mathlib.Order.WellFounded
import SoundGraph.Traversal

/-! The dependencies among the pending nodes of a sketch: a node depends on the numbers that occur in its
arguments, at any bundle depth. Only nodes of the sketch have arguments, so a descent along dependencies
that never ends comes back to a node that it has left, and a sketch without cycles has none. -/

namespace SoundGraph

inductive Element.Mentions (id : Nat) : Element → Prop where
  | pending : Mentions id (.pending id)
  | bundle {e : Element} {channels : List Element} (hmem : e ∈ channels) (h : Mentions id e) :
    Mentions id (.bundle channels)

theorem Element.mem_pendings_iff {id : Nat} {e : Element} : id ∈ e.pendings ↔ e.Mentions id := by
  induction e using Element.induction with
  | const v => exact ⟨fun h => by simp [pendings] at h, fun h => by cases h⟩
  | out r => exact ⟨fun h => by simp [pendings] at h, fun h => by cases h⟩
  | pending j =>
    rw [pendings, List.mem_singleton]
    refine ⟨fun h => h ▸ .pending, fun h => ?_⟩
    cases h
    rfl
  | bundle es ih =>
    rw [pendings, pendingsOf_eq, List.mem_flatMap]
    refine ⟨fun ⟨e, he, hid⟩ => .bundle he ((ih e he).1 hid), fun h => ?_⟩
    cases h with
    | bundle he hid => exact ⟨_, he, (ih _ he).2 hid⟩

namespace Sketch

def DependsOn (s : Sketch) (i j : Nat) : Prop :=
  ∃ node args, s.pending[i]? = some node ∧ node.args = some args ∧ ∃ e ∈ args, e.Mentions j

/-- The node comes back to itself along dependencies. -/
def OnCycle (s : Sketch) (i : Nat) : Prop := Relation.TransGen s.DependsOn i i

def Acyclic (s : Sketch) : Prop := ∀ i, ¬ s.OnCycle i

def FullyDefined (s : Sketch) : Prop := ∀ node ∈ s.pending.toList, node.args.isSome

/-- What a node mentions, from the left, repetitions included. -/
def dependencies (s : Sketch) (i : Nat) : List Nat :=
  match s.argsOf i with
  | .ok (_, args) => Element.pendingsOf args
  | .error _ => []

variable {s : Sketch} {i j : Nat} {node : PendingNode} {args : List Element}

theorem argsOf_eq_ok_iff :
    s.argsOf i = .ok (node, args) ↔ s.pending[i]? = some node ∧ node.args = some args := by
  unfold argsOf
  cases hp : s.pending[i]? with
  | none => simp
  | some node' =>
    cases ha : node'.args with
    | none => grind
    | some args' => grind

theorem lt_of_argsOf (h : s.argsOf i = .ok (node, args)) : i < s.size :=
  (Array.getElem?_eq_some_iff.1 (argsOf_eq_ok_iff.1 h).1).1

theorem FullyDefined.exists_argsOf (h : s.FullyDefined) (hi : i < s.size) : ∃ p, s.argsOf i = .ok p := by
  obtain ⟨args, hargs⟩ := Option.isSome_iff_exists.1 (h _ (Array.getElem_mem_toList hi))
  exact ⟨_, argsOf_eq_ok_iff.2 ⟨Array.getElem?_eq_getElem hi, hargs⟩⟩

theorem dependencies_of_argsOf (h : s.argsOf i = .ok (node, args)) :
    s.dependencies i = Element.pendingsOf args := by
  rw [dependencies, h]

theorem mem_dependencies_iff : j ∈ s.dependencies i ↔ s.DependsOn i j := by
  unfold dependencies
  refine ⟨fun h => ?_, fun ⟨node, args, hp, ha, e, he, hj⟩ => ?_⟩
  · split at h
    · next node args hargs =>
      obtain ⟨hp, ha⟩ := argsOf_eq_ok_iff.1 hargs
      rw [Element.pendingsOf_eq, List.mem_flatMap] at h
      obtain ⟨e, he, hj⟩ := h
      exact ⟨node, args, hp, ha, e, he, Element.mem_pendings_iff.1 hj⟩
    · cases h
  · rw [argsOf_eq_ok_iff.2 ⟨hp, ha⟩]
    dsimp only
    rw [Element.pendingsOf_eq, List.mem_flatMap]
    exact ⟨e, he, Element.mem_pendings_iff.2 hj⟩

theorem mem_pendingsOf_iff (h : s.argsOf i = .ok (node, args)) :
    j ∈ Element.pendingsOf args ↔ s.DependsOn i j := by
  rw [← dependencies_of_argsOf h, mem_dependencies_iff]

theorem DependsOn.lt_size (h : s.DependsOn i j) : i < s.size := by
  obtain ⟨node, -, hp, -⟩ := h
  exact (Array.getElem?_eq_some_iff.1 hp).1

/-- A rank that falls along every dependency leaves no room for a cycle. -/
theorem acyclic_of_rank (rank : Nat → Nat) (hrank : ∀ i j, s.DependsOn i j → rank j < rank i) :
    s.Acyclic := by
  intro i hcycle
  have hfall : ∀ j, Relation.TransGen s.DependsOn i j → rank j < rank i := by
    intro j hij
    induction hij with
    | single hij => exact hrank i _ hij
    | tail _ hjk ih => exact (hrank _ _ hjk).trans ih
  exact (hfall i hcycle).false

/-- A descent that never ends visits one of finitely many nodes twice. -/
theorem Acyclic.wellFounded (h : s.Acyclic) : WellFounded fun j i => s.DependsOn i j := by
  rw [wellFounded_iff_isEmpty_descending_chain]
  refine ⟨fun ⟨f, hf⟩ => ?_⟩
  have hreach : ∀ k d, Relation.TransGen s.DependsOn (f k) (f (k + d + 1)) := by
    intro k d
    induction d with
    | zero => exact .single (hf k)
    | succ d ih => exact ih.tail (hf (k + d + 1))
  have hlater : ∀ k l, k < l → f k ≠ f l := by
    intro k l hlt heq
    obtain ⟨d, rfl⟩ := Nat.exists_eq_add_of_lt hlt
    have hcycle := hreach k d
    rw [← heq] at hcycle
    exact h _ hcycle
  -- only nodes of the sketch have dependencies, so two numbers of the chain agree
  obtain ⟨k, l, hne, heq⟩ := Finite.exists_ne_map_eq_of_infinite fun k =>
    (⟨f k, (hf k).lt_size⟩ : Fin s.size)
  rw [Fin.mk.injEq] at heq
  rcases Nat.lt_or_gt_of_ne hne with hlt | hlt
  · exact hlater k l hlt heq
  · exact hlater l k hlt heq.symm

end Sketch

end SoundGraph
