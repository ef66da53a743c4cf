import Mathlib.Tactic.SplitIfs
import SoundGraph.Proofs.Toml.Scan
import SoundGraph.Toml.Printer

/-! Strings come back from their text, in whichever of the four forms they were written. In a quoted string
every character has a spelling, and spellings are read one by one. A string on several lines may hold its
own delimiter, though never three in a row: where a run of delimiters meets the three that end the string,
the reader leaves to the string what stands in front of the last three. -/

namespace SoundGraph.Toml

open Scan

variable {c : Char} {cs piece rest : List Char} {fuel : Nat}

theorem codePoint_append {digits : List Char} (rest : List Char) (hhex : ∀ d ∈ digits, isHexDigit d = true)
    (hvalue : valueIn 16 digits = c.toNat) : codePoint digits.length (digits ++ rest) = some (c, rest) := by
  have hvalid : c.toNat.isValidChar := c.valid
  rw [codePoint, bind_apply, exactly_append hhex, Option.bind_some, hvalue, if_pos hvalid, Char.ofNat_toNat]
  rfl

/-- Four digits are enough for the code of a control character. -/
theorem digits_unicodeEscape : ∀ n < 128, isControl (Char.ofNat n) →
    let digits := (unicodeEscape (Char.ofNat n)).drop 2
    digits.length = 4 ∧ digits.all isHexDigit = true ∧ valueIn 16 digits = n := by
  decide +kernel

inductive Spells (c : Char) : List Char → Prop
  | plain : isControl c = false → c ≠ '\\' → Spells c [c]
  | escaped {d : Char} {e : List Char} : isBlank d = false → d ≠ '\n' → d ≠ '\r' →
      (∀ rest, escape (d :: (e ++ rest)) = some (c, rest)) → Spells c ('\\' :: d :: e)

theorem spells_unicodeEscape (h : isControl c = true) : Spells c (unicodeEscape c) := by
  have hcode : (c.toNat < 0x20 ∧ c ≠ '\t') ∨ c.toNat = 0x7f := by simpa [isControl] using h
  have hlt : c.toNat < 128 := by omega
  have hdigits := digits_unicodeEscape c.toNat hlt (by rwa [Char.ofNat_toNat])
  rw [Char.ofNat_toNat] at hdigits
  obtain ⟨hlength, hhex, hvalue⟩ := hdigits
  refine .escaped (d := 'u') (by decide) (by decide) (by decide) fun rest => ?_
  have hread := codePoint_append rest (List.all_eq_true.1 hhex) hvalue
  rwa [hlength] at hread

/-- A backslash and one more character. -/
theorem spells_pair {d : Char} (hd : isBlank d = false ∧ d ≠ '\n' ∧ d ≠ '\r')
    (h : ∀ rest, escape (d :: rest) = some (c, rest)) : Spells c ['\\', d] :=
  .escaped hd.1 hd.2.1 hd.2.2 h

theorem spells_escapeChar (c : Char) : Spells c (escapeChar c) := by
  unfold escapeChar
  split
  case h_6 hslash =>
    split
    case isTrue h => exact spells_unicodeEscape h
    case isFalse h => exact .plain (by simpa using h) hslash
  all_goals exact spells_pair (by decide) fun _ => rfl

theorem Spells.length_pos (h : Spells c piece) : 0 < piece.length := by
  cases h <;> simp

theorem Spells.ne_quote (h : Spells c piece) (hc : c ≠ '"') : piece ≠ ['"'] := by
  rintro rfl
  cases h
  exact hc rfl

theorem Spells.quotedRest (h : Spells c piece) (hquote : piece ≠ ['"']) :
    quotedRest (fuel + 1) (piece ++ cs) = (quotedRest fuel cs).map fun r => (c :: r.1, r.2) := by
  cases h with
  | plain hcontrol hslash =>
    have hc : c ≠ '"' := by rintro rfl; exact hquote rfl
    rw [Toml.quotedRest]
    simp [hcontrol]
  | escaped _ _ _ hescape => simp [Toml.quotedRest, hescape]

theorem escapeLine_cons (c : Char) (cs : List Char) :
    ∃ piece, escapeLine (c :: cs) = piece ++ escapeLine cs ∧ Spells c piece ∧ piece ≠ ['"'] := by
  refine ⟨_, List.flatMap_cons, ?_⟩
  split
  case isTrue h =>
    subst h
    exact ⟨spells_pair (by decide) fun _ => rfl, by simp⟩
  case isFalse hquote =>
    split
    case isTrue h =>
      subst h
      exact ⟨spells_pair (by decide) fun _ => rfl, by simp⟩
    case isFalse =>
      have h := spells_escapeChar c
      exact ⟨h, h.ne_quote hquote⟩

theorem quotedRest_escapeLine (hfuel : (escapeLine cs).length < fuel) :
    quotedRest fuel (escapeLine cs ++ '"' :: rest) = some (cs, rest) := by
  induction cs generalizing fuel with
  | nil =>
    obtain ⟨fuel, rfl⟩ := exists_succ_of_lt hfuel
    simp [escapeLine, quotedRest]
  | cons c cs ih =>
    obtain ⟨fuel, rfl⟩ := exists_succ_of_lt hfuel
    obtain ⟨piece, heq, hspells, hquote⟩ := escapeLine_cons c cs
    have hpos := hspells.length_pos
    rw [heq, List.length_append] at hfuel
    rw [heq, List.append_assoc, hspells.quotedRest hquote, ih (by omega)]
    rfl

inductive Short (d : Char) : Nat → List Char → Prop
  | nil {n : Nat} : Short d n []
  | other {n : Nat} {c : Char} {cs : List Char} : c ≠ d → Short d n (c :: cs)
  | delimiter {n : Nat} {cs : List Char} : Short d n cs → Short d (n + 1) (d :: cs)

theorem Short.mono {d : Char} {m n : Nat} (h : Short d m cs) (hmn : m ≤ n) : Short d n cs := by
  induction h generalizing n with
  | nil => exact .nil
  | other h => exact .other h
  | delimiter _ ih =>
    obtain ⟨n, rfl⟩ := Nat.exists_eq_succ_of_ne_zero (Nat.ne_zero_of_lt hmn)
    exact .delimiter (ih (Nat.le_of_succ_le_succ hmn))

/-- Three delimiters behind a short run end the string with the run in it, and end nothing that goes on
with another character. -/
theorem Short.closing {d : Char} (h : Short d 2 cs) (hrest : Stops (· == d) rest) :
    (closing d (cs ++ d :: d :: d :: rest) = some (cs, rest) ∧ ∀ c ∈ cs, c = d) ∨
      (closing d (cs ++ d :: d :: d :: rest) = none ∧ cs ≠ []) := by
  have hnone := char_of_stops hrest
  have hstop := option_of_none hnone
  cases h with
  | nil => simp [Toml.closing, hstop]
  | other h => simp [Toml.closing, h]
  | delimiter h =>
    cases h with
    | nil => simp [Toml.closing, hstop, option_of_some]
    | other h => simp [Toml.closing, h]
    | delimiter h =>
      cases h with
      | nil => simp [Toml.closing, option_of_some]
      | other h => simp [Toml.closing, h]

theorem Spells.exists_cons (h : Spells c piece) (hquote : piece ≠ ['"']) :
    ∃ d e, piece = d :: e ∧ d ≠ '"' := by
  cases h with
  | plain => exact ⟨c, [], rfl, fun hc => hquote (by rw [hc])⟩
  | escaped => exact ⟨'\\', _, rfl, by decide⟩

theorem escapeLines_cons (run : Nat) (c : Char) (cs : List Char) :
    (c = '"' ∧ run ≠ 2 ∧ escapeLines run (c :: cs) = '"' :: escapeLines (run + 1) cs) ∨
    (c = '\n' ∧ escapeLines run (c :: cs) = '\n' :: escapeLines 0 cs) ∨
      ∃ piece, escapeLines run (c :: cs) = piece ++ escapeLines 0 cs ∧ Spells c piece ∧ piece ≠ ['"'] := by
  rw [escapeLines]
  split
  case isTrue hquote =>
    subst hquote
    split
    case isTrue =>
      exact .inr (.inr ⟨['\\', '"'], rfl, spells_pair (by decide) fun _ => rfl, by simp⟩)
    case isFalse hrun => exact .inl ⟨rfl, hrun, rfl⟩
  case isFalse hquote =>
    split
    case isTrue hline => exact .inr (.inl ⟨hline, rfl⟩)
    case isFalse =>
      have h := spells_escapeChar c
      exact .inr (.inr ⟨_, rfl, h, h.ne_quote hquote⟩)

theorem short_escapeLines {run : Nat} (hrun : run ≤ 2) : Short '"' (2 - run) (escapeLines run cs) := by
  induction cs generalizing run with
  | nil => exact .nil
  | cons c cs ih =>
    obtain ⟨-, hne, heq⟩ | ⟨-, heq⟩ | ⟨piece, heq, hspells, hquote⟩ := escapeLines_cons run c cs
    · have h : Short '"' (2 - (run + 1)) (escapeLines (run + 1) cs) := ih (by omega)
      obtain ⟨n, hn⟩ : ∃ n, 2 - run = n + 1 := ⟨1 - run, by omega⟩
      rw [heq, hn]
      exact .delimiter (h.mono (by omega))
    · rw [heq]
      exact .other (by decide)
    · obtain ⟨d, e, rfl, hd⟩ := hspells.exists_cons hquote
      rw [heq]
      exact .other hd

/-- A string of quotes only stands as it is. -/
theorem escapeLines_eq_self {run : Nat} (h : ∀ d ∈ escapeLines run cs, d = '"') : escapeLines run cs = cs := by
  induction cs generalizing run with
  | nil => rfl
  | cons c cs ih =>
    obtain ⟨rfl, -, heq⟩ | ⟨-, heq⟩ | ⟨piece, heq, hspells, hquote⟩ := escapeLines_cons run c cs
    · rw [heq] at h ⊢
      rw [ih (List.forall_mem_cons.1 h).2]
    · rw [heq] at h
      exact absurd (h _ List.mem_cons_self) (by decide)
    · obtain ⟨d, e, rfl, hd⟩ := hspells.exists_cons hquote
      rw [heq] at h
      exact absurd (h _ List.mem_cons_self) hd

theorem escapedNewline_cons (hc : c ≠ '\\') : escapedNewline fuel (c :: cs) = none := by
  simp [escapedNewline, hc]

theorem quotedLinesRest_newline (hclosing : closing '"' ('\n' :: cs) = none) :
    quotedLinesRest (fuel + 1) ('\n' :: cs) = (quotedLinesRest fuel cs).map fun r => ('\n' :: r.1, r.2) := by
  have hcontrol : isControl '\n' = true := rfl
  rw [quotedLinesRest, orElse_apply, hclosing, Option.none_or]
  simp [escapedNewline_cons, hcontrol]

theorem Spells.quotedLinesRest (h : Spells c piece) (hclosing : closing '"' (piece ++ cs) = none) :
    quotedLinesRest (fuel + 1) (piece ++ cs) = (quotedLinesRest fuel cs).map fun r => (c :: r.1, r.2) := by
  rw [Toml.quotedLinesRest, orElse_apply, hclosing, Option.none_or]
  cases h with
  | plain hcontrol hslash =>
    have hline : newline (c :: cs) = none := newline_of_not_control hcontrol
    simp [escapedNewline_cons hslash, hline, hcontrol]
  | @escaped d e hblank hn hr hescape =>
    have hslash : newline ('\\' :: d :: (e ++ cs)) = none := newline_of_stops (by simp)
    have hline : newline (d :: (e ++ cs)) = none := newline_of_stops (by simp [hn, hr])
    simp [escapedNewline, blanks_of_stops, hblank, hslash, hline, hescape]

/-- A string on several lines is read up to its three quotes, with the quotes of its own in front of
them. -/
theorem quotedLinesRest_escapeLines {run : Nat} (hrun : run ≤ 2) (hrest : Stops (· == '"') rest)
    (hfuel : (escapeLines run cs).length < fuel) :
    quotedLinesRest fuel (escapeLines run cs ++ '"' :: '"' :: '"' :: rest) = some (cs, rest) := by
  induction cs generalizing run fuel with
  | nil =>
    obtain ⟨fuel, rfl⟩ := exists_succ_of_lt hfuel
    simp [escapeLines, quotedLinesRest, closing, option_of_none (char_of_stops hrest)]
  | cons c cs ih =>
    obtain ⟨fuel, rfl⟩ := exists_succ_of_lt hfuel
    -- either only quotes are left of the string, or its end is still ahead
    obtain ⟨h, hquotes⟩ | ⟨h, -⟩ := ((short_escapeLines hrun).mono (Nat.sub_le _ _)).closing hrest
    · rw [quotedLinesRest, orElse_apply, h, escapeLines_eq_self hquotes]
      rfl
    · obtain ⟨rfl, hne, heq⟩ | ⟨rfl, heq⟩ | ⟨piece, heq, hspells, -⟩ := escapeLines_cons run c cs
      · rw [heq, List.length_cons] at hfuel
        have hplain : Spells '"' ['"'] := .plain (by decide) (by decide)
        rw [heq, List.cons_append, ← List.singleton_append] at h ⊢
        rw [hplain.quotedLinesRest h, ih (by omega) (by omega)]
        rfl
      · rw [heq, List.length_cons] at hfuel
        rw [heq, List.cons_append] at h ⊢
        rw [quotedLinesRest_newline h, ih (by omega) (by omega)]
        rfl
      · have hpos := hspells.length_pos
        rw [heq, List.length_append] at hfuel
        rw [heq, List.append_assoc] at h ⊢
        rw [hspells.quotedLinesRest h, ih (by omega) (by omega)]
        rfl

theorem short_of_longestRun {d : Char} {run : Nat} (h : longestRun d run cs ≤ 2) :
    run ≤ 2 ∧ Short d (2 - run) cs := by
  induction cs generalizing run with
  | nil => exact ⟨h, .nil⟩
  | cons c cs ih =>
    rw [longestRun] at h
    split at h
    case isTrue hc =>
      subst hc
      obtain ⟨hrun, hshort⟩ := ih h
      obtain ⟨n, hn⟩ : ∃ n, 2 - run = n + 1 := ⟨1 - run, by omega⟩
      rw [hn]
      exact ⟨by omega, .delimiter (hshort.mono (by omega))⟩
    case isFalse hc => exact ⟨by omega, .other hc⟩

theorem longestRun_tail {d : Char} {run : Nat} (h : longestRun d run (c :: cs) ≤ 2) :
    ∃ run', longestRun d run' cs ≤ 2 := by
  rw [longestRun] at h
  split at h
  · exact ⟨_, h⟩
  · exact ⟨0, by omega⟩

theorem literalLinesRest_self {run : Nat} (hrun : longestRun '\'' run cs ≤ 2)
    (hplain : ∀ c ∈ cs, isHidden c = false) (hrest : Stops (· == '\'') rest) (hfuel : cs.length < fuel) :
    literalLinesRest fuel (cs ++ '\'' :: '\'' :: '\'' :: rest) = some (cs, rest) := by
  induction cs generalizing run fuel with
  | nil =>
    obtain ⟨fuel, rfl⟩ := exists_succ_of_lt hfuel
    simp [literalLinesRest, closing, option_of_none (char_of_stops hrest)]
  | cons c cs ih =>
    obtain ⟨fuel, rfl⟩ := exists_succ_of_lt hfuel
    obtain ⟨-, hshort⟩ := short_of_longestRun hrun
    obtain ⟨h, -⟩ | ⟨h, -⟩ := (hshort.mono (Nat.sub_le _ _)).closing hrest
    · rw [literalLinesRest, orElse_apply, h]
      rfl
    · obtain ⟨run', hrun⟩ := longestRun_tail hrun
      obtain ⟨hc, hplain⟩ := List.forall_mem_cons.1 hplain
      have hread := ih hrun hplain (Nat.lt_of_succ_lt_succ hfuel)
      rw [literalLinesRest, orElse_apply, h, Option.none_or, List.cons_append]
      by_cases hline : c = '\n'
      · simp [hline, hread]
      · have hcontrol : isControl c = false := by simpa [isHidden, hline] using hc
        simp [newline_of_not_control hcontrol, hcontrol, hread]

theorem stops_escapeLine (cs : List Char) : Stops (· == '"') (escapeLine cs) := by
  cases cs with
  | nil => exact stops_nil
  | cons c cs =>
    obtain ⟨piece, heq, hspells, hquote⟩ := escapeLine_cons c cs
    obtain ⟨d, e, rfl, hd⟩ := hspells.exists_cons hquote
    rw [heq]
    simpa using hd

theorem quoted_escapeLine : quoted ('"' :: (escapeLine cs ++ '"' :: rest)) = some (String.ofList cs, rest) := by
  simp (disch := omega) [quoted, quotedRest_escapeLine]

theorem of_styleOf_literal (h : styleOf cs = .literal) : ∀ c ∈ cs, isControl c = false ∧ c ≠ '\'' := by
  simp only [styleOf] at h
  split_ifs at h with hhidden _ _ hplain
  have hcontrol : ∀ c ∈ cs, isControl c = true → c = '\n' := by simpa [isHidden] using hhidden
  obtain ⟨hline, hquote⟩ : '\n' ∉ cs ∧ '\'' ∉ cs := by simpa using hplain
  intro c hc
  refine ⟨?_, fun h => hquote (h ▸ hc)⟩
  cases h : isControl c with
  | false => rfl
  | true => exact absurd (hcontrol c hc h ▸ hc) hline

theorem of_styleOf_literalLines (h : styleOf cs = .literalLines) :
    (∀ c ∈ cs, isHidden c = false) ∧ longestRun '\'' 0 cs ≤ 2 := by
  simp only [styleOf] at h
  split_ifs at h with hhidden _ _ _ _ hrun
  exact ⟨by simpa using hhidden, hrun⟩

theorem stops_escapeLines (hline : '\n' ∉ cs) :
    Stops (fun c => c == '\n' || c == '\r') (escapeLines 0 cs ++ '"' :: rest) := by
  cases cs with
  | nil => simp [escapeLines]
  | cons c cs =>
    obtain ⟨-, -, heq⟩ | ⟨rfl, -⟩ | ⟨piece, heq, hspells, -⟩ := escapeLines_cons 0 c cs
    · simp [heq]
    · exact absurd List.mem_cons_self hline
    · rw [heq, List.append_assoc]
      cases hspells with
      | plain hcontrol => exact stops_cons.2 (not_newline_of_not_control hcontrol)
      | escaped => simp

theorem option_newline_leadingNewline (h : '\n' ∉ cs → Stops (fun c => c == '\n' || c == '\r') rest) :
    ∃ n, option newline (leadingNewline cs ++ rest) = some (n, rest) := by
  rw [leadingNewline]
  split
  case isTrue => exact ⟨_, option_of_some newline_cons⟩
  case isFalse hline => exact ⟨_, option_of_none (newline_of_stops (h (by simpa using hline)))⟩

theorem quotedLines_escapeLines (hrest : Stops (· == '"') rest) :
    quotedLines ('"' :: '"' :: '"' :: (leadingNewline cs ++ (escapeLines 0 cs ++ '"' :: '"' :: '"' :: rest))) =
      some (String.ofList cs, rest) := by
  have hstops (hline : '\n' ∉ cs) :
      Stops (fun c => c == '\n' || c == '\r') (escapeLines 0 cs ++ '"' :: '"' :: '"' :: rest) :=
    stops_escapeLines hline
  obtain ⟨n, hn⟩ := option_newline_leadingNewline hstops
  simp (disch := omega) [quotedLines, hn, quotedLinesRest_escapeLines (Nat.zero_le 2) hrest]

theorem literalLines_self (hplain : ∀ c ∈ cs, isHidden c = false) (hrun : longestRun '\'' 0 cs ≤ 2)
    (hrest : Stops (· == '\'') rest) :
    literalLines ('\'' :: '\'' :: '\'' :: (leadingNewline cs ++ (cs ++ '\'' :: '\'' :: '\'' :: rest))) =
      some (String.ofList cs, rest) := by
  have hstops (hline : '\n' ∉ cs) :
      Stops (fun c => c == '\n' || c == '\r') (cs ++ '\'' :: '\'' :: '\'' :: rest) := by
    cases cs with
    | nil => simp
    | cons c cs =>
      have hc : isHidden c = false := hplain c List.mem_cons_self
      have hne : c ≠ '\n' := fun h => hline (h ▸ List.mem_cons_self)
      exact stops_cons.2 (not_newline_of_not_control (by simpa [isHidden, hne] using hc))
  obtain ⟨n, hn⟩ := option_newline_leadingNewline hstops
  simp (disch := omega) [literalLines, hn, literalLinesRest_self hrun hplain hrest]

theorem literal_self (hplain : ∀ c ∈ cs, isControl c = false ∧ c ≠ '\'') :
    literal ('\'' :: (cs ++ '\'' :: rest)) = some (String.ofList cs, rest) := by
  have hspan : span (fun c => !isControl c && c != '\'') (cs ++ '\'' :: rest) = some (cs, '\'' :: rest) :=
    span_append (by simpa using hplain) (by simp)
  simp only [literal, bind_apply, char_cons, if_true, Option.bind_some, hspan]
  simp

theorem quotedLines_escapeLine (hrest : Stops (· == '"') rest) :
    quotedLines ('"' :: (escapeLine cs ++ '"' :: rest)) = none := by
  have hstops := stops_escapeLine cs
  cases h : escapeLine cs with
  | nil => simp [quotedLines, char_of_stops hrest]
  | cons d e =>
    rw [h] at hstops
    have hd : d ≠ '"' := by simpa using hstops
    simp [quotedLines, hd]

theorem literalLines_of_literal (hplain : ∀ c ∈ cs, isControl c = false ∧ c ≠ '\'')
    (hrest : Stops (· == '\'') rest) : literalLines ('\'' :: (cs ++ '\'' :: rest)) = none := by
  cases cs with
  | nil => simp [literalLines, char_of_stops hrest]
  | cons c cs => simp [literalLines, (hplain c List.mem_cons_self).2]

/-- Any string is read as it was written, whatever stands behind it but a quote. -/
theorem anyString_stringText (s : String) (hdouble : Stops (· == '"') rest) (hsingle : Stops (· == '\'') rest) :
    anyString ((stringText s).toList ++ rest) = some (s, rest) := by
  have hs : String.ofList s.toList = s := String.ofList_toList
  rw [stringText]
  split
  case h_1 =>
    simp [anyString, quotedLines_escapeLine hdouble, quoted_escapeLine, hs]
  case h_2 hstyle =>
    have hplain := of_styleOf_literal hstyle
    simp [anyString, quotedLines, quoted, literalLines_of_literal hplain hsingle, literal_self hplain, hs]
  case h_3 =>
    simp [anyString, quotedLines_escapeLines hdouble, hs]
  case h_4 hstyle =>
    obtain ⟨hplain, hrun⟩ := of_styleOf_literalLines hstyle
    simp [anyString, quotedLines, quoted, literalLines_self hplain hrun hsingle, hs]

end SoundGraph.Toml
