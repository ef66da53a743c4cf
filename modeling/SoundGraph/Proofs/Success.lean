import Mathlib.Data.List.Forall2

/-! When a computation that can stop early succeeds: a sequence does when every step does, and a run
over a list does when it does at every element; otherwise it fails as one of them does. -/

namespace SoundGraph

variable {ε ε' α β γ : Type}

theorem bind_eq_ok_iff {act : Except ε α} {f : α → Except ε β} {b : β} :
    act >>= f = .ok b ↔ ∃ a, act = .ok a ∧ f a = .ok b := by
  cases act <;> simp [bind, Except.bind]

theorem map_eq_ok_iff {act : Except ε α} {f : α → β} {b : β} :
    act.map f = .ok b ↔ ∃ a, act = .ok a ∧ f a = b := by
  cases act <;> simp [Except.map]

theorem mapError_eq_ok_iff {act : Except ε α} {f : ε → ε'} {a : α} :
    act.mapError f = .ok a ↔ act = .ok a := by
  cases act <;> simp [Except.mapError]

theorem ite_eq_ok_iff {p : Prop} [Decidable p] {a b : α} {e : ε} :
    (if p then .ok a else .error e : Except ε α) = .ok b ↔ p ∧ b = a := by
  by_cases h : p
  · simp [h, eq_comm]
  · simp [h]

theorem forM_eq_ok_iff {f : α → Except ε Unit} {l : List α} :
    l.forM f = .ok () ↔ ∀ a ∈ l, f a = .ok () := by
  induction l with
  | nil => simp [List.forM, pure, Except.pure]
  | cons a as ih =>
    change (do f a; as.forM f) = .ok () ↔ _
    rw [bind_eq_ok_iff, ih, List.forall_mem_cons]
    exact ⟨fun ⟨_, ha, has⟩ => ⟨ha, has⟩, fun ⟨ha, has⟩ => ⟨(), ha, has⟩⟩

theorem mapM_eq_ok_iff {f : α → Except ε β} {as : List α} {bs : List β} :
    as.mapM f = .ok bs ↔ List.Forall₂ (fun a b => f a = .ok b) as bs := by
  induction as generalizing bs with
  | nil => cases bs <;> simp [pure, Except.pure]
  | cons a as ih =>
    rw [List.mapM_cons, bind_eq_ok_iff]
    refine ⟨?_, ?_⟩
    · intro h'
      rcases h' with ⟨b, hb, h⟩
      obtain ⟨bs', hbs, h⟩ := bind_eq_ok_iff.1 h
      cases h
      exact .cons hb (ih.1 hbs)
    · intro h'
      rcases h' with (_ | ⟨hb, hbs⟩)
      exact ⟨_, hb, bind_eq_ok_iff.2 ⟨_, ih.2 hbs, rfl⟩⟩

/-- A run whose steps succeed alike. -/
theorem mapM_mono {f g : α → Except ε β} {as : List α} {bs : List β}
    (h : ∀ a ∈ as, ∀ b, f a = .ok b → g a = .ok b) (hf : as.mapM f = .ok bs) : as.mapM g = .ok bs := by
  rw [mapM_eq_ok_iff] at hf ⊢
  induction hf with
  | nil => exact .nil
  | cons hb _ ih =>
    obtain ⟨ha, has⟩ := List.forall_mem_cons.1 h
    exact .cons (ha _ hb) (ih has)

theorem mapM_congr {m : Type → Type} [Monad m] [LawfulMonad m] {f g : α → m β} {as : List α}
    (h : ∀ a ∈ as, f a = g a) : as.mapM f = as.mapM g := by
  induction as with
  | nil => rfl
  | cons a as ih =>
    obtain ⟨ha, has⟩ := List.forall_mem_cons.1 h
    rw [List.mapM_cons, List.mapM_cons, ha, ih has]

theorem bind_eq_error_iff {act : Except ε α} {f : α → Except ε β} {e : ε} :
    act >>= f = .error e ↔ act = .error e ∨ ∃ a, act = .ok a ∧ f a = .error e := by
  cases act <;> simp [bind, Except.bind]

/-- A run over a list fails as it does at one of its elements. -/
theorem exists_of_mapM_eq_error {f : α → Except ε β} {as : List α} {e : ε}
    (h : as.mapM f = .error e) : ∃ a ∈ as, f a = .error e := by
  induction as with
  | nil => simp [pure, Except.pure] at h
  | cons a as ih =>
    rw [List.mapM_cons, bind_eq_error_iff] at h
    rcases h with h | ⟨b, -, h⟩
    · exact ⟨a, List.mem_cons_self, h⟩
    · rcases bind_eq_error_iff.1 h with h | ⟨bs, -, h⟩
      · obtain ⟨a', ha', h'⟩ := ih h
        exact ⟨a', List.mem_cons_of_mem _ ha', h'⟩
      · cases h

/-- A check over a list stops at the first element that fails it. -/
theorem forM_eq_error_iff {f : α → Except ε Unit} {as : List α} {e : ε} :
    as.forM f = .error e ↔
      ∃ (k : Nat) (a : α), as[k]? = some a ∧ f a = .error e ∧
        ∀ l < k, ∀ b, as[l]? = some b → f b = .ok () := by
  induction as with
  | nil => simp [List.forM, pure, Except.pure]
  | cons a as ih =>
    change (do f a; as.forM f) = .error e ↔ _
    rw [bind_eq_error_iff, ih]
    refine ⟨?_, ?_⟩
    · rintro (ha | ⟨_, ha, k, b, hk, hb, hbefore⟩)
      · exact ⟨0, a, rfl, ha, fun l hl => absurd hl (Nat.not_lt_zero l)⟩
      · refine ⟨k + 1, b, hk, hb, fun l hl c hc => ?_⟩
        cases l with
        | zero =>
          cases hc
          exact ha
        | succ l => exact hbefore l (Nat.lt_of_succ_lt_succ hl) c hc
    · rintro ⟨k, b, hk, hb, hbefore⟩
      cases k with
      | zero =>
        cases hk
        exact .inl hb
      | succ k =>
        refine .inr ⟨(), hbefore 0 k.succ_pos a rfl, k, b, hk, hb, fun l hl c hc => ?_⟩
        exact hbefore (l + 1) (Nat.succ_lt_succ hl) c hc

/-- A check over a list fails as it does at one of its elements. -/
theorem exists_of_forM_eq_error {f : α → Except ε Unit} {as : List α} {e : ε}
    (h : as.forM f = .error e) : ∃ a ∈ as, f a = .error e := by
  obtain ⟨k, a, hk, ha, -⟩ := forM_eq_error_iff.1 h
  exact ⟨a, List.mem_of_getElem? hk, ha⟩

theorem mapError_eq_error_iff {act : Except ε α} {f : ε → ε'} {e' : ε'} :
    act.mapError f = .error e' ↔ ∃ e, act = .error e ∧ f e = e' := by
  cases act <;> simp [Except.mapError]

/-- Some relative to each. -/
theorem exists_forall₂_iff {R : α → β → Prop} {as : List α} :
    (∃ bs, List.Forall₂ R as bs) ↔ ∀ a ∈ as, ∃ b, R a b := by
  induction as with
  | nil => simp
  | cons a as ih =>
    rw [List.forall_mem_cons, ← ih]
    refine ⟨?_, ?_⟩
    · rintro ⟨_, _ | ⟨ha, has⟩⟩
      exact ⟨⟨_, ha⟩, _, has⟩
    · rintro ⟨⟨b, ha⟩, bs, has⟩
      exact ⟨b :: bs, .cons ha has⟩

/-- What the left ones can be given along with the right ones, one by one. -/
theorem exists_forall₂_of_forall₂ {R : α → β → Prop} {S : α → γ → Prop} {T : β → γ → Prop} {as : List α} {bs : List β}
    (h : List.Forall₂ R as bs) (hR : ∀ a ∈ as, ∀ b, R a b → ∃ c, S a c ∧ T b c) :
    ∃ cs, List.Forall₂ S as cs ∧ List.Forall₂ T bs cs := by
  induction h with
  | nil => exact ⟨[], .nil, .nil⟩
  | cons hab _ ih =>
    obtain ⟨ha, has⟩ := List.forall_mem_cons.1 hR
    obtain ⟨c, hac, hbc⟩ := ha _ hab
    obtain ⟨cs, hcs, hcs'⟩ := ih has
    exact ⟨c :: cs, .cons hac hcs, .cons hbc hcs'⟩

theorem exists_mapM_eq_ok {f : α → Except ε β} {as : List α} (h : ∀ a ∈ as, ∃ b, f a = .ok b) :
    ∃ bs, as.mapM f = .ok bs := by
  simp only [mapM_eq_ok_iff]
  exact exists_forall₂_iff.2 h

theorem exists_left_of_forall₂ {R : α → β → Prop} {as : List α} {bs : List β}
    (h : List.Forall₂ R as bs) {b : β} (hb : b ∈ bs) : ∃ a ∈ as, R a b := by
  induction h with
  | nil => cases hb
  | cons hr _ ih =>
    rcases List.mem_cons.1 hb with rfl | hb
    · exact ⟨_, List.mem_cons_self, hr⟩
    · obtain ⟨a, ha, hab⟩ := ih hb
      exact ⟨a, List.mem_cons_of_mem _ ha, hab⟩

theorem exists_right_of_forall₂ {R : α → β → Prop} {as : List α} {bs : List β} (h : List.Forall₂ R as bs)
    {i : Nat} {a : α} (ha : as[i]? = some a) : ∃ b, bs[i]? = some b ∧ R a b := by
  induction h generalizing i with
  | nil => simp at ha
  | @cons a' b as bs hr _ ih =>
    cases i with
    | zero =>
      cases ha
      exact ⟨b, rfl, hr⟩
    | succ i => exact ih ha

/-- A longer list has the same partners to begin with, if they are the same one by one. -/
theorem isPrefix_of_forall₂ {R S : α → β → Prop} {as as' : List α} {bs bs' : List β} (h : List.Forall₂ R as bs)
    (h' : List.Forall₂ S as' bs') (hpre : as <+: as') (hsame : ∀ a b b', R a b → S a b' → b = b') :
    bs <+: bs' := by
  induction h generalizing as' bs' with
  | nil => exact List.nil_prefix
  | cons hr _ ih =>
    obtain ⟨rest, rfl⟩ := hpre
    cases h' with
    | cons hs hrest =>
      rw [hsame _ _ _ hr hs]
      exact List.cons_prefix_cons.2 ⟨rfl, ih hrest (List.prefix_append _ _)⟩

theorem forall₂_comp {R : α → β → Prop} {S : β → γ → Prop} {as : List α} {bs : List β} {cs : List γ}
    (h : List.Forall₂ R as bs) (h' : List.Forall₂ S bs cs) :
    List.Forall₂ (fun a c => ∃ b, R a b ∧ S b c) as cs := by
  induction h generalizing cs with
  | nil =>
    cases h'
    exact .nil
  | cons hr _ ih =>
    cases h' with
    | cons hs h' => exact .cons ⟨_, hr, hs⟩ (ih h')

end SoundGraph
