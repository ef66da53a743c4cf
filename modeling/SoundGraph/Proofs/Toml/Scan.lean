import SoundGraph.Toml.Lexeme

/-! Running scanners. A scanner that is made of others runs as they do one after the other, and a failing
branch leaves the text to the next one. Where a scanner stops depends on the character behind what it
takes only, so that a text can be read piece by piece. -/

namespace SoundGraph.Toml

/-- Fuel that is more than something lasts for one round. -/
theorem exists_succ_of_lt {m fuel : Nat} (h : m < fuel) : ∃ n, fuel = n + 1 :=
  Nat.exists_eq_add_one_of_ne_zero (Nat.ne_zero_of_lt h)

/-- The text does not go on with such a character. -/
def Stops (p : Char → Bool) (cs : List Char) : Prop := ∀ c ∈ cs.head?, p c = false

section

variable {p q : Char → Bool} {c : Char} {cs rest : List Char}

@[simp] theorem stops_nil : Stops p [] := by simp [Stops]

@[simp] theorem stops_cons : Stops p (c :: cs) ↔ p c = false := by simp [Stops]

theorem stops_append (h : Stops p cs) (hne : cs ≠ []) : Stops p (cs ++ rest) := by
  cases cs with
  | nil => exact absurd rfl hne
  | cons c cs => simpa using h

theorem Stops.mono (h : Stops q cs) (hpq : ∀ c, p c = true → q c = true) : Stops p cs := by
  intro c hc
  cases hp : p c with
  | false => rfl
  | true => exact absurd (hpq c hp) (by simp [h c hc])

end

/-- Two classes are apart if one of them has but a few characters, none of them in the other. -/
theorem apply_eq_false {p q : Char → Bool} {few : List Char} {c : Char} (hfew : q c = true → c ∈ few)
    (hp : few.any p = false) (hc : p c = true) : q c = false := by
  cases hq : q c with
  | false => rfl
  | true => exact absurd hc (List.any_eq_false.1 hp c (hfew hq))

theorem beq_of_apply {p : Char → Bool} {c d : Char} (hc : p c = true) (hd : p d = false) : (c == d) = false := by
  have hfew : (c == d) = true → c ∈ [d] := by simp
  exact apply_eq_false (q := (· == d)) hfew (by simpa using hd) hc

namespace Scan

variable {α β : Type} {s t : Scan α} {f : α → Scan β} {g : α → β} {a : α} {p : Char → Bool} {c d : Char}
  {cs l rest : List Char}

@[simp] theorem pure_apply : (pure a : Scan α) cs = some (a, cs) := by cases cs <;> rfl

@[simp] theorem failure_apply : (failure : Scan α) cs = none := by cases cs <;> rfl

@[simp] theorem bind_apply : (s >>= f) cs = (s cs).bind fun r => f r.1 r.2 := rfl

@[simp] theorem map_apply : (g <$> s) cs = (s cs).map fun r => (g r.1, r.2) := by
  cases h : s cs <;> simp [Functor.map, StateT.map, h]

@[simp] theorem orElse_apply : (s <|> t) cs = (s cs).or (t cs) := by
  cases h : s cs <;> simp [HOrElse.hOrElse, OrElse.orElse, Alternative.orElse, StateT.orElse, h]

@[simp] theorem discard_apply : discard s cs = (s cs).map fun r => ((), r.2) := by
  cases h : s cs <;> simp [discard, Functor.mapConst, StateT.map, h, bind]

@[simp] theorem peek_apply : peek cs = some (cs.head?, cs) := by rw [peek]; rfl

@[simp] theorem fuel_apply : fuel cs = some (cs.length + 1, cs) := rfl

@[simp] theorem next_cons : next (c :: cs) = some (c, cs) := by rw [next]

@[simp] theorem satisfy_cons : satisfy p (c :: cs) = if p c then some (c, cs) else none := by
  cases h : p c <;> simp [satisfy, h]

theorem satisfy_of_stops (h : Stops p cs) : satisfy p cs = none := by
  cases cs with
  | nil => rfl
  | cons c cs => simp [stops_cons.1 h]

@[simp] theorem char_cons : char c (d :: cs) = if d = c then some ((), cs) else none := by
  by_cases h : d = c <;> simp [char, h]

theorem char_self : char c (c :: cs) = some ((), cs) := by simp

theorem char_of_stops (h : Stops (· == c) cs) : char c cs = none := by simp [char, satisfy_of_stops h]

@[simp] theorem token_nil : token [] cs = some ((), cs) := by rw [token, pure_apply]

@[simp] theorem token_cons : token (c :: l) cs = (char c cs).bind fun r => token l r.2 := by rw [token, bind_apply]

@[simp] theorem span_apply : span p cs = some (cs.takeWhile p, cs.dropWhile p) := rfl

theorem span_of_stops (h : Stops p cs) : span p cs = some ([], cs) := by
  cases cs with
  | nil => rfl
  | cons c cs => simp [stops_cons.1 h]

theorem span_append (hl : ∀ c ∈ l, p c = true) (h : Stops p rest) : span p (l ++ rest) = some (l, rest) := by
  obtain ⟨htake, hdrop⟩ := Prod.mk.inj (Option.some.inj (span_apply.symm.trans (span_of_stops h)))
  rw [span_apply, List.takeWhile_append_of_pos hl, List.dropWhile_append_of_pos hl, htake, hdrop,
    List.append_nil]

theorem option_of_some {r : α × List Char} (h : s cs = some r) : option s cs = some (some r.1, r.2) := by
  simp [option, h]

theorem option_of_none (h : s cs = none) : option s cs = some (none, cs) := by simp [option, h]

end Scan

open Scan

variable {p : Char → Bool} {c : Char} {cs l rest : List Char}

theorem mem_of_isBlank (h : isBlank c = true) : c ∈ [' ', '\t'] := by simpa [isBlank] using h

theorem blanks_append (hl : l.all isBlank = true) (h : Stops isBlank rest) :
    blanks (l ++ rest) = some ((), rest) := by
  rw [blanks, discard_apply, span_append (List.all_eq_true.1 hl) h]
  rfl

theorem blanks_of_stops (h : Stops isBlank cs) : blanks cs = some ((), cs) :=
  blanks_append (l := []) rfl h

@[simp] theorem newline_cons : newline ('\n' :: cs) = some ((), cs) := by simp [newline]

theorem newline_of_stops (h : Stops (fun c => c == '\n' || c == '\r') cs) : newline cs = none := by
  have hn : Stops (· == '\n') cs := h.mono (by simp +contextual)
  have hr : Stops (· == '\r') cs := h.mono (by simp +contextual)
  simp [newline, char_of_stops hn, char_of_stops hr]

theorem not_newline_of_not_control (h : isControl c = false) : (c == '\n' || c == '\r') = false := by
  cases hc : (c == '\n' || c == '\r') with
  | false => rfl
  | true =>
    rw [Bool.or_eq_true, beq_iff_eq, beq_iff_eq] at hc
    obtain rfl | rfl := hc <;> cases h

theorem newline_of_not_control (h : isControl c = false) : newline (c :: cs) = none :=
  newline_of_stops (stops_cons.2 (not_newline_of_not_control h))

theorem exactly_append (hl : ∀ c ∈ l, p c = true) :
    exactly p l.length (l ++ rest) = some (l, rest) := by
  induction l with
  | nil => rfl
  | cons c l ih =>
    obtain ⟨hc, hl⟩ := List.forall_mem_cons.1 hl
    simp [exactly, hc, ih hl]

end SoundGraph.Toml
