import SoundGraph.Proofs.Schedule.Appended

/-! Renumbering a node again. Once its constants have their slots, no slot is given out for it, so it comes out as it
did before. Kept nodes that are listed a second time, behind all others, therefore come out a second time and change
nothing else. -/

namespace SoundGraph

namespace FirstUse

variable {α β : Type} {act : StateT FirstUse (Except Fault) α} {constants : Array Sample}

theorem Keeps.refl (u : FirstUse) : u.Keeps u := fun _ _ h => h

theorem Keeps.trans {u v w : FirstUse} (h : u.Keeps v) (h' : v.Keeps w) : u.Keeps w :=
  fun c k hc => h' c k (h c k hc)

/-- Where the slots given out by `act` are there, `act` answers alike and changes nothing. -/
def Repeatable (act : StateT FirstUse (Except Fault) α) : Prop :=
  ∀ u a u', act u = .ok (a, u') → u.Keeps u' ∧ ∀ v, u'.Keeps v → act v = .ok (a, v)

theorem repeatable_pure (a : α) : Repeatable (pure a : StateT FirstUse (Except Fault) α) := by
  intro u a' u' h
  cases h
  exact ⟨.refl u, fun v _ => rfl⟩

theorem Repeatable.bind {f : α → StateT FirstUse (Except Fault) β} (h : Repeatable act)
    (hf : ∀ a, Repeatable (f a)) : Repeatable (act >>= f) := by
  intro u b u' hrun
  obtain ⟨⟨a, u₁⟩, hact, hrest⟩ := bind_eq_ok_iff.1 hrun
  obtain ⟨hkeeps, hagain⟩ := h u a u₁ hact
  obtain ⟨hkeeps', hagain'⟩ := hf a u₁ b u' hrest
  refine ⟨hkeeps.trans hkeeps', fun v hv => ?_⟩
  exact bind_eq_ok_iff.2 ⟨(a, v), hagain v (hkeeps'.trans hv), hagain' v hv⟩

theorem repeatable_mapM {f : α → StateT FirstUse (Except Fault) β} (hf : ∀ a, Repeatable (f a)) (as : List α) :
    Repeatable (as.mapM f) := by
  induction as with
  | nil => exact repeatable_pure []
  | cons a as ih =>
    rw [List.mapM_cons]
    exact (hf a).bind fun b => ih.bind fun bs => repeatable_pure (b :: bs)

theorem repeatable_slot (c : Nat) : Repeatable (slot constants c) := by
  intro u k u' h
  have hslot : u.Keeps u' ∧ u'.slots[c]? = some (some k) := by
    unfold slot at h
    split at h
    · next hlt =>
      split at h
      · next hk =>
        cases h
        exact ⟨.refl u, (Array.getElem?_eq_getElem hlt).trans (congrArg some hk)⟩
      · next hk _ =>
        cases h
        refine ⟨fun d j hd => ?_, by simp⟩
        rw [Array.getElem?_set hlt]
        split
        · next heq =>
          subst heq
          rw [Array.getElem?_eq_getElem hlt, hk] at hd
          cases hd
        · exact hd
      · cases h
    · cases h
  refine ⟨hslot.1, fun v hv => ?_⟩
  obtain ⟨hlt, hget⟩ := Array.getElem?_eq_some_iff.1 (hv c k hslot.2)
  rw [slot, dif_pos hlt, hget]

theorem repeatable_renumberNode (position : Array Nat) (node : EmittedNode) :
    Repeatable (renumberNode position constants node) := by
  refine (repeatable_mapM (fun input => ?_) _).bind fun inputs => repeatable_pure { node with inputs }
  cases input with
  | constant c => exact (repeatable_slot c).bind fun k => repeatable_pure (Input.constant k)
  | node source =>
    rw [renumberInput]
    cases position[source.node]? with
    | none =>
      intro u a u' h
      cases h
    | some p => exact repeatable_pure (Input.node ⟨p, source.output⟩)

/-- After a run over a list every step can be done again. -/
theorem forall₂_repeat {f : α → StateT FirstUse (Except Fault) β} (hf : ∀ a, Repeatable (f a)) {as : List α}
    {bs : List β} {u u' : FirstUse} (h : as.mapM f u = .ok (bs, u')) :
    List.Forall₂ (fun a b => f a u' = .ok (b, u')) as bs := by
  induction as generalizing u bs with
  | nil =>
    cases h
    exact .nil
  | cons a as ih =>
    rw [List.mapM_cons] at h
    obtain ⟨⟨b, u₁⟩, ha, h⟩ := bind_eq_ok_iff.1 h
    obtain ⟨⟨bs', u₂⟩, has, h⟩ := bind_eq_ok_iff.1 h
    cases h
    exact .cons ((hf a u b u₁ ha).2 u' (repeatable_mapM hf as u₁ bs' u' has).1) (ih has)

/-- Steps that each leave the slots as they are. -/
theorem mapM_of_still {f : α → StateT FirstUse (Except Fault) β} {as : List α} {bs : List β} {u : FirstUse}
    (h : List.Forall₂ (fun a b => f a u = .ok (b, u)) as bs) : as.mapM f u = .ok (bs, u) := by
  induction h with
  | nil => rfl
  | cons ha _ ih =>
    rw [List.mapM_cons]
    exact bind_eq_ok_iff.2 ⟨_, ha, bind_eq_ok_iff.2 ⟨_, ih, rfl⟩⟩

end FirstUse

theorem renumberNode_congr {position position' : Array Nat} {constants : Array Sample} {node : EmittedNode}
    (h : ∀ i, node.Reads i → position'[i]? = position[i]?) :
    renumberNode position' constants node = renumberNode position constants node := by
  have hinput : ∀ input ∈ node.inputs,
      renumberInput position' constants input = renumberInput position constants input := by
    intro input hin
    cases input with
    | constant c => rfl
    | node source => rw [renumberInput, renumberInput, h source.node ⟨source.output, hin⟩]
  rw [renumberNode, renumberNode, mapM_congr hinput]

end SoundGraph
