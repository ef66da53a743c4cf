import Mathlib.Data.List.Induction
import SoundGraph.Proofs.Expansion.Sound
import SoundGraph.Proofs.Success
import SoundGraph.Schedule.Merge

/-! What merging leaves: every node read so far has a node that stands for it, kept with the same inputs
once they are redirected to the nodes that stand for their sources. Impure nodes stand for themselves and
for nothing else, since a node and its stand-in carry the same flags. -/

namespace SoundGraph

def Input.redirect (f : Nat → Nat) : Input → Input
  | .constant index => .constant index
  | .node source => .node ⟨f source.node, source.output⟩

def EmittedNode.redirect (f : Nat → Nat) (n : EmittedNode) : EmittedNode :=
  { n with inputs := n.inputs.map (Input.redirect f) }

theorem Input.redirect_id (input : Input) : input.redirect id = input := by cases input <;> rfl

theorem EmittedNode.redirect_id (n : EmittedNode) : n.redirect id = n := by
  rw [EmittedNode.redirect, funext Input.redirect_id, List.map_id']

theorem EmittedNode.redirect_redirect (n : EmittedNode) (f g : Nat → Nat) :
    (n.redirect f).redirect g = n.redirect fun i => g (f i) := by
  rw [redirect, redirect, redirect, List.map_map]
  congr 1
  refine List.map_congr_left fun input _ => ?_
  cases input <;> rfl

def EmittedNode.Reads (n : EmittedNode) (i : Nat) : Prop :=
  ∃ output, Input.node ⟨i, output⟩ ∈ n.inputs

theorem EmittedNode.redirect_congr {n : EmittedNode} {f g : Nat → Nat}
    (h : ∀ i, n.Reads i → f i = g i) : n.redirect f = n.redirect g := by
  unfold redirect
  congr 1
  refine List.map_congr_left fun input hin => ?_
  cases input with
  | constant index => rfl
  | node source => rw [Input.redirect, Input.redirect, h source.node ⟨source.output, hin⟩]

namespace Merge

/-- The node that stands for node `i`. -/
def stand (m : Merge) (i : Nat) : Nat := m.canonical.getD i i

structure Covers (m : Merge) (nodes : List EmittedNode) : Prop where
  size_canonical : m.canonical.size = nodes.length
  size_kept : m.kept.size = nodes.length
  sources : ∀ node ∈ nodes, ∀ i, node.Reads i → i < nodes.length
  stand_le : ∀ i < nodes.length, m.stand i ≤ i
  kept_stand : ∀ (i : Nat) node, nodes[i]? = some node →
    m.kept[m.stand i]? = some (some (node.redirect m.stand))
  stand_kept : ∀ (i : Nat) node, m.kept[i]? = some (some node) → m.stand i = i
  stand_impure : ∀ (i : Nat) node, nodes[i]? = some node → node.flags.pure = false → m.stand i = i
  seen_iff : ∀ node (i : Nat), m.seen[node]? = some i ↔
    node.flags.pure = true ∧ m.kept[i]? = some (some node)

theorem covers_empty : empty.Covers [] :=
  ⟨rfl, rfl, by simp, by simp, by simp, by simp [empty], by simp, by simp [empty]⟩

variable {m : Merge} {nodes : List EmittedNode} {node : EmittedNode}

/-- The inputs of a node that reads nothing later are redirected, all of them. -/
theorem mapM_rewriteInput (h : ∀ i, node.Reads i → i < m.canonical.size) :
    node.inputs.mapM (rewriteInput m.canonical) = .ok (node.inputs.map (Input.redirect m.stand)) := by
  rw [mapM_eq_ok_iff, List.forall₂_map_right_iff, List.forall₂_same]
  intro input hin
  cases input with
  | constant index => rfl
  | node source =>
    have hlt := h source.node ⟨source.output, hin⟩
    have hget : m.canonical[source.node]? = some (m.stand source.node) := by
      rw [stand, Array.getD_eq_getD_getElem?, Array.getElem?_eq_getElem hlt]
      rfl
    rw [rewriteInput, hget]
    rfl

theorem stand_push_lt (h : m.canonical.size = nodes.length) {i : Nat} (hi : i < nodes.length)
    (s : Nat) (kept : Array (Option EmittedNode)) (seen : Std.HashMap EmittedNode Nat) :
    stand ⟨m.canonical.push s, kept, seen⟩ i = m.stand i := by
  have hne : i < m.canonical.size := by omega
  simp only [stand, Array.getD_eq_getD_getElem?, Array.getElem?_push_lt hne,
    Array.getElem?_eq_getElem hne]

theorem stand_push_last (h : m.canonical.size = nodes.length) (s : Nat)
    (kept : Array (Option EmittedNode)) (seen : Std.HashMap EmittedNode Nat) :
    stand ⟨m.canonical.push s, kept, seen⟩ nodes.length = s := by
  simp only [stand, Array.getD_eq_getD_getElem?, ← h, Array.getElem?_push_size, Option.getD_some]

theorem redirect_push (h : m.canonical.size = nodes.length)
    (hsrc : ∀ i, node.Reads i → i < nodes.length) (s : Nat) (kept : Array (Option EmittedNode))
    (seen : Std.HashMap EmittedNode Nat) :
    node.redirect (stand ⟨m.canonical.push s, kept, seen⟩) = node.redirect m.stand :=
  EmittedNode.redirect_congr fun i hi => stand_push_lt h (hsrc i hi) s kept seen

theorem getElem?_snoc_cases {i : Nat} {n : EmittedNode} (h : (nodes ++ [node])[i]? = some n) :
    nodes[i]? = some n ∧ i < nodes.length ∨ i = nodes.length ∧ n = node := by
  rcases Nat.lt_or_ge i nodes.length with hlt | hge
  · rw [List.getElem?_append_left hlt] at h
    exact .inl ⟨h, hlt⟩
  · rw [List.getElem?_append_right hge, List.getElem?_singleton] at h
    split at h
    · next h0 =>
      cases h
      exact .inr ⟨by omega, rfl⟩
    · cases h

/-- One more node with its stand-in `s`, which is either an earlier kept node or the node itself. -/
theorem Covers.extend (h : m.Covers nodes) (hsrc : ∀ i, node.Reads i → i < nodes.length) {s : Nat}
    {entry : Option EmittedNode} {seen : Std.HashMap EmittedNode Nat} (hle : s ≤ nodes.length)
    (hkept : (m.kept.push entry)[s]? = some (some (node.redirect m.stand)))
    (hself : entry.isSome → s = nodes.length) (himpure : node.flags.pure = false → s = nodes.length)
    (hseen : ∀ n (i : Nat), seen[n]? = some i ↔
      n.flags.pure = true ∧ (m.kept.push entry)[i]? = some (some n)) :
    Covers ⟨m.canonical.push s, m.kept.push entry, seen⟩ (nodes ++ [node]) := by
  have hlast := stand_push_last h.size_canonical s (m.kept.push entry) seen
  have hold : ∀ i < nodes.length,
      stand ⟨m.canonical.push s, m.kept.push entry, seen⟩ i = m.stand i :=
    fun i hi => stand_push_lt h.size_canonical hi s _ seen
  have hreads : ∀ n ∈ nodes ++ [node], ∀ i, n.Reads i → i < nodes.length := by
    intro n hn
    rcases List.mem_append.1 hn with hn | hn
    · exact h.sources n hn
    · exact List.mem_singleton.1 hn ▸ hsrc
  have hle' : ∀ i < nodes.length + 1,
      stand ⟨m.canonical.push s, m.kept.push entry, seen⟩ i ≤ i := by
    intro i hi
    rcases Nat.lt_succ_iff_lt_or_eq.1 hi with hlt | rfl
    · rw [hold i hlt]
      exact h.stand_le i hlt
    · rwa [hlast]
  refine ⟨by simp [h.size_canonical], by simp [h.size_kept], fun n hn i hi => ?_, by simpa using hle',
    fun i n hi => ?_, fun i n hi => ?_, fun i n hi hn => ?_, hseen⟩
  · have := hreads n hn i hi
    simp only [List.length_append, List.length_singleton]
    omega
  · rw [redirect_push h.size_canonical (hreads n (List.mem_of_getElem? hi))]
    rcases getElem?_snoc_cases hi with ⟨hn, hlt⟩ | ⟨rfl, rfl⟩
    · rw [hold i hlt]
      exact getElem?_mono (prefix_push _ _) (h.kept_stand i n hn)
    · rw [hlast]
      exact hkept
  · change (m.kept.push entry)[i]? = _ at hi
    rw [Array.getElem?_push, h.size_kept] at hi
    split at hi
    · next heq =>
      rw [heq, hlast]
      exact hself (by rw [Option.some.inj hi]; rfl)
    · have hlt : i < nodes.length := h.size_kept ▸ (Array.getElem?_eq_some_iff.1 hi).1
      rw [hold i hlt]
      exact h.stand_kept i n hi
  · rcases getElem?_snoc_cases hi with ⟨hget, hlt⟩ | ⟨rfl, rfl⟩
    · rw [hold i hlt]
      exact h.stand_impure i n hget hn
    · rw [hlast]
      exact himpure hn

/-- The kept nodes once another entry is put behind them. -/
theorem Covers.getElem?_push (h : m.Covers nodes) (entry : Option EmittedNode) (n : EmittedNode) (i : Nat) :
    (m.kept.push entry)[i]? = some (some n) ↔
      i = nodes.length ∧ entry = some n ∨ m.kept[i]? = some (some n) := by
  rw [Array.getElem?_push, h.size_kept]
  split
  · next heq =>
    have hnone : m.kept[i]? = none := Array.getElem?_eq_none (Nat.le_of_eq (h.size_kept.trans heq.symm))
    rw [hnone]
    simp [heq]
  · next hne => simp [hne]

theorem Covers.place (h : m.Covers nodes) (hsrc : ∀ i, node.Reads i → i < nodes.length) :
    (m.place (node.redirect m.stand)).Covers (nodes ++ [node]) := by
  have hnew := (h.getElem?_push (some (node.redirect m.stand)) _ _).2 (.inl ⟨rfl, rfl⟩)
  unfold Merge.place
  split
  · next hp =>
    split
    · next s hs =>
      obtain ⟨-, hkept⟩ := (h.seen_iff _ s).1 hs
      have hlt : s < nodes.length := h.size_kept ▸ (Array.getElem?_eq_some_iff.1 hkept).1
      refine h.extend hsrc (Nat.le_of_lt hlt) (getElem?_mono (prefix_push _ _) hkept) (by simp)
        (fun himp => ?_) fun n i => ?_
      · rw [show (node.redirect m.stand).flags = node.flags from rfl, himp] at hp
        cases hp
      · rw [h.seen_iff, h.getElem?_push]
        simp
    · next hs =>
      rw [h.size_canonical]
      refine h.extend hsrc (Nat.le_refl _) hnew (fun _ => rfl) (fun _ => rfl) fun n i => ?_
      rw [Std.HashMap.getElem?_insert, h.getElem?_push]
      by_cases hn : node.redirect m.stand = n
      · subst hn
        have hnone : ∀ i : Nat, m.kept[i]? ≠ some (some (node.redirect m.stand)) := by
          intro i hi
          rw [(h.seen_iff _ i).2 ⟨hp, hi⟩] at hs
          cases hs
        simp [hp, hnone, eq_comm]
      · simp [hn, h.seen_iff]
  · next hp =>
    rw [keep, h.size_canonical]
    refine h.extend hsrc (Nat.le_refl _) hnew (fun _ => rfl) (fun _ => rfl) fun n i => ?_
    rw [h.seen_iff, h.getElem?_push]
    refine ⟨fun ⟨hn, hi⟩ => ⟨hn, .inr hi⟩, fun hx => ?_⟩
    rcases hx with ⟨hn, ⟨-, heq⟩ | hi⟩
    · rw [← Option.some.inj heq] at hn
      exact absurd hn hp
    · exact ⟨hn, hi⟩

/-- Merging never stops, and the whole table is covered. -/
theorem covers_ofNodes (h : ∀ (i : Nat) node, nodes[i]? = some node → ∀ j, node.Reads j → j < i) :
    ∃ m, ofNodes nodes = .ok m ∧ m.Covers nodes := by
  induction nodes using List.reverseRecOn with
  | nil => exact ⟨empty, rfl, covers_empty⟩
  | append_singleton nodes node ih =>
    have hold : ∀ (i : Nat) n, nodes[i]? = some n → ∀ j, n.Reads j → j < i := by
      intro i n hi
      refine h i n ?_
      rw [List.getElem?_append_left (List.getElem?_eq_some_iff.1 hi).1, hi]
    obtain ⟨m, hm, hcov⟩ := ih hold
    have hsrc : ∀ i, node.Reads i → i < nodes.length :=
      h nodes.length node (by simp)
    refine ⟨m.place (node.redirect m.stand), ?_, hcov.place hsrc⟩
    have hin : node.inputs.mapM (rewriteInput m.canonical) =
        .ok (node.inputs.map (Input.redirect m.stand)) :=
      mapM_rewriteInput (by rwa [hcov.size_canonical])
    rw [ofNodes] at hm ⊢
    rw [List.foldlM_append, hm]
    simp only [bind, Except.bind, List.foldlM_cons, List.foldlM_nil, step, hin]
    rfl

end Merge

end SoundGraph
