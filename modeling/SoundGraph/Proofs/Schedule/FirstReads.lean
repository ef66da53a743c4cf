import SoundGraph.Proofs.Schedule.Appended

/-! The order in which renumbering gives out its slots. Read along the renumbered nodes, each slot is
either one that was read before or the next one; so every slot is read, and the slots are first read in
their own order. -/

namespace SoundGraph

def Input.constants : Input → List Nat
  | .constant index => [index]
  | .node _ => []

def EmittedNode.constants (n : EmittedNode) : List Nat := n.inputs.flatMap Input.constants

/-- The numbers below `n`, in a list in which each first stands after all the smaller ones. -/
inductive Numbered : List Nat → Nat → Prop where
  | nil : Numbered [] 0
  | again {l : List Nat} {k n : Nat} (h : Numbered l n) (hk : k < n) : Numbered (l ++ [k]) n
  | next {l : List Nat} {n : Nat} (h : Numbered l n) : Numbered (l ++ [n]) (n + 1)

namespace Numbered

variable {l : List Nat} {k m n : Nat}

theorem mem_iff (h : Numbered l n) : k ∈ l ↔ k < n := by
  induction h with
  | nil => simp
  | again h hk ih =>
    rw [List.mem_append, List.mem_singleton, ih]
    omega
  | next h ih =>
    rw [List.mem_append, List.mem_singleton, ih]
    omega

theorem idxOf_lt (h : Numbered l n) (hkm : k < m) (hm : m < n) : l.idxOf k < l.idxOf m := by
  induction h with
  | nil => omega
  | again h hlt ih =>
    rw [List.idxOf_append_of_mem (h.mem_iff.2 hm), List.idxOf_append_of_mem (h.mem_iff.2 (by omega))]
    exact ih hm
  | @next l n h ih =>
    rw [List.idxOf_append_of_mem (h.mem_iff.2 (by omega) : k ∈ l)]
    rcases Nat.lt_succ_iff_lt_or_eq.1 hm with hlt | rfl
    · rw [List.idxOf_append_of_mem (h.mem_iff.2 hlt)]
      exact ih hlt
    · have hnew : m ∉ l := fun hmem => Nat.lt_irrefl m (h.mem_iff.1 hmem)
      rw [List.idxOf_append_of_notMem hnew]
      exact Nat.lt_add_right _ (List.idxOf_lt_length_of_mem (h.mem_iff.2 hkm))

end Numbered

namespace FirstUse

structure Numbers (slots : List Nat) (u : FirstUse) : Prop where
  numbered : Numbered slots u.pool.size
  slot_lt : ∀ c k : Nat, u.slots[c]? = some (some k) → k < u.pool.size

theorem numbers_empty (count : Nat) : (empty count).Numbers [] := by
  refine ⟨.nil, fun c k h => ?_⟩
  rw [empty, Array.getElem?_replicate] at h
  split at h <;> cases h

/-- When `act` succeeds, the list read before it goes on as its answer says. -/
def Reads {α : Type} (before : List Nat) (act : StateT FirstUse (Except Fault) α) (after : α → List Nat) : Prop :=
  ∀ u a u', act u = .ok (a, u') → u.Numbers before → u'.Numbers (after a)

variable {α β : Type} {before : List Nat} {constants : Array Sample} {position : Array Nat}

theorem reads_pure {a : α} (after : α → List Nat) : Reads (after a) (pure a) after := by
  intro u b u' h hu
  cases h
  exact hu

theorem Reads.bind {act : StateT FirstUse (Except Fault) α} {f : α → StateT FirstUse (Except Fault) β}
    {between : α → List Nat} {after : β → List Nat} (h : Reads before act between)
    (hf : ∀ a, Reads (between a) (f a) after) : Reads before (act >>= f) after := by
  intro u b u' hrun hu
  obtain ⟨⟨a, u₁⟩, hact, hrest⟩ := bind_eq_ok_iff.1 hrun
  exact hf a u₁ b u' hrest (h u a u₁ hact hu)

theorem reads_mapM {f : α → StateT FirstUse (Except Fault) β} {read : β → List Nat} {as : List α}
    (hf : ∀ a ∈ as, ∀ before, Reads before (f a) fun b => before ++ read b) (before : List Nat) :
    Reads before (as.mapM f) fun bs => before ++ bs.flatMap read := by
  induction as generalizing before with
  | nil => simpa using reads_pure (a := []) fun bs : List β => before ++ bs.flatMap read
  | cons a as ih =>
    obtain ⟨ha, has⟩ := List.forall_mem_cons.1 hf
    rw [List.mapM_cons]
    refine (ha before).bind fun b => (ih has _).bind fun bs => ?_
    simpa using reads_pure (a := b :: bs) fun bs : List β => before ++ bs.flatMap read

/-- A slot that was given out before is read again; else it is the next one. -/
theorem reads_slot {c : Nat} : Reads before (slot constants c) fun k => before ++ [k] := by
  intro u k u' h hu
  unfold slot at h
  split at h
  · next hlt =>
    split at h
    · next k' hk =>
      cases h
      exact ⟨hu.numbered.again (hu.slot_lt c k (by rw [Array.getElem?_eq_getElem hlt, hk])), hu.slot_lt⟩
    · cases h
      refine ⟨?_, fun d k hd => ?_⟩
      · rw [Array.size_push]
        exact hu.numbered.next
      · rw [Array.size_push]
        rw [Array.getElem?_set hlt] at hd
        split at hd
        · cases hd
          exact Nat.lt_succ_self _
        · exact Nat.lt_succ_of_lt (hu.slot_lt d k hd)
    · cases h
  · cases h

theorem reads_renumberInput (input : Input) (before : List Nat) :
    Reads before (renumberInput position constants input) fun input' => before ++ input'.constants := by
  cases input with
  | constant c =>
    exact reads_slot.bind fun k => reads_pure (a := Input.constant k) fun input' => before ++ input'.constants
  | node source =>
    rw [renumberInput]
    split
    · next p _ =>
      simpa [Input.constants] using
        reads_pure (a := Input.node ⟨p, source.output⟩) fun input' => before ++ input'.constants
    · intro u a u' h
      cases h

theorem reads_renumberNode (node : EmittedNode) (before : List Nat) :
    Reads before (renumberNode position constants node) fun n' => before ++ n'.constants :=
  (reads_mapM (fun input _ => reads_renumberInput input) before).bind fun inputs =>
    reads_pure (a := { node with inputs }) fun n' => before ++ n'.constants

end FirstUse

/-- What the renumbered nodes read are the slots of the new pool, each of them, in the order in which they
were given out. -/
theorem numbered_renumber {kept : Array (Option EmittedNode)} {constants pool : Array Sample} {sorted : Array Nat}
    {out : List EmittedNode} (h : renumber kept constants sorted = .ok (out, pool)) :
    Numbered (out.flatMap EmittedNode.constants) pool.size := by
  obtain ⟨nodes, u, -, hrun, rfl⟩ := renumber_eq_ok_iff.1 h
  have hreads : FirstUse.Reads [] (nodes.mapM (renumberNode (positions kept.size sorted) constants))
      fun out => [] ++ out.flatMap EmittedNode.constants :=
    FirstUse.reads_mapM (fun n _ => FirstUse.reads_renumberNode n) []
  exact (hreads _ _ _ hrun (FirstUse.numbers_empty _)).numbered

end SoundGraph
