import SoundGraph.Proofs.Toml.Strings

/-! Values that hold no other come back from their text. What a text begins with settles what it can be: a
number might still be a date, a time or a float, and those fail at the first character that is no digit,
because a numeral is followed by the end of its value. -/

namespace SoundGraph.Toml

open Scan

/-- The text goes on with what can stand behind a value: the end of the line, a comma or a closing
bracket. -/
def Ends (cs : List Char) : Prop := ∀ c ∈ cs.head?, c ∈ ['\n', ',', ']']

variable {p : Char → Bool} {c : Char} {cs ds rest : List Char} {n : Int}

theorem Ends.stops (h : Ends cs) (hp : ['\n', ',', ']'].any p = false) : Stops p cs :=
  fun c hc => Bool.eq_false_iff.2 (List.any_eq_false.1 hp c (h c hc))

structure Numeral (ds : List Char) : Prop where
  ne_nil : ds ≠ []
  digits : ∀ c ∈ ds, isDigit c = true
  lead : ds.head? = some '0' → ds.length = 1

theorem isDigit_of_mem_toDigits {n : Nat} (h : c ∈ Nat.toDigits 10 n) : isDigit c = true := by
  have hc := Nat.isDigit_of_mem_toDigits (by decide) (by decide) h
  simpa [isDigit, Char.isDigit, Char.le_def] using hc

theorem head?_toDigits {n : Nat} (h : (Nat.toDigits 10 n).head? = some '0') : n = 0 := by
  induction n using Nat.strongRecOn with
  | ind n ih =>
    rw [Nat.toDigits_eq_if (by decide)] at h
    split at h
    case isTrue hn =>
      have hall : ∀ n < 10, Nat.digitChar n = '0' → n = 0 := by decide
      exact hall n hn (by simpa using h)
    case isFalse hn =>
      rw [List.head?_append, Option.or_of_isSome (by simp)] at h
      have hzero := ih (n / 10) (by omega) h
      omega

theorem numeral_toDigits (n : Nat) : Numeral (Nat.toDigits 10 n) where
  ne_nil := Nat.toDigits_ne_nil
  digits _ := isDigit_of_mem_toDigits
  lead h := by
    rw [head?_toDigits h]
    rfl

theorem foldl_hexValue (h : ∀ c ∈ ds, isDigit c = true) (m : Nat) :
    ds.foldl (fun n c => 10 * n + hexValue c) m = Nat.ofDigitChars 10 ds m := by
  induction ds generalizing m with
  | nil => rfl
  | cons c ds ih =>
    obtain ⟨hc, h⟩ := List.forall_mem_cons.1 h
    rw [List.foldl_cons, ih h, Nat.ofDigitChars_cons, hexValue, if_pos hc]

theorem valueIn_toDigits (n : Nat) : valueIn 10 (Nat.toDigits 10 n) = n := by
  rw [valueIn, foldl_hexValue fun _ => isDigit_of_mem_toDigits, Nat.ofDigitChars_ten_toDigits]

namespace Numeral

theorem stops (h : Numeral ds) (hc : isDigit c = false) : Stops (· == c) (ds ++ rest) := by
  refine stops_append ?_ h.ne_nil
  intro d hd
  exact beq_of_apply (h.digits d (List.mem_of_mem_head? hd)) hc

theorem wellSeparated (h : Numeral ds) : wellSeparated ds = true := by
  obtain ⟨hne, hdigits, -⟩ := h
  fun_induction Toml.wellSeparated ds with
  | case1 => exact absurd rfl hne
  | case2 => simp [isDigit] at hdigits
  | case3 => rfl
  | case4 => simp [isDigit] at hdigits
  | case5 c cs _ hsingle _ ih =>
    refine ih ?_ (List.forall_mem_cons.1 hdigits).2
    rintro rfl
    exact hsingle rfl

theorem digits_append (h : Numeral ds) (hrest : Ends rest) : Toml.digits isDigit (ds ++ rest) = some (ds, rest) := by
  have hscore : ∀ c ∈ ds, (c == '_') = false := fun c hc => beq_of_apply (h.digits c hc) (by decide)
  have hspan : span (fun c => isDigit c || c == '_') (ds ++ rest) = some (ds, rest) :=
    span_append (fun c hc => by simp [h.digits c hc]) (hrest.stops (by decide))
  have hfilter : ds.filter (· != '_') = ds := List.filter_eq_self.2 fun c hc => by simpa [bne] using hscore c hc
  have hhead : ds.head? ≠ some '_' := fun hhead => by simpa using hscore '_' (List.mem_of_mem_head? hhead)
  rw [Toml.digits, bind_apply, hspan, Option.bind_some, if_pos ⟨h.wellSeparated, hhead⟩, hfilter]
  rfl

theorem wholePart_append (h : Numeral ds) (hrest : Ends rest) : wholePart (ds ++ rest) = some (ds, rest) := by
  rw [wholePart, bind_apply, h.digits_append hrest, Option.bind_some, if_neg fun hlead => hlead.2 (h.lead hlead.1)]
  rfl

end Numeral

/-- However many digits are taken, digits and the end of the value stand behind them. -/
theorem digits_of_exactly {w : Nat} (hds : ∀ c ∈ ds, isDigit c = true) (hrest : Ends rest)
    {r : List Char × List Char} (h : exactly isDigit w (ds ++ rest) = some r) :
    ∃ ds', (∀ c ∈ ds', isDigit c = true) ∧ r.2 = ds' ++ rest := by
  induction w generalizing ds r with
  | zero =>
    cases h
    exact ⟨ds, hds, rfl⟩
  | succ w ih =>
    cases ds with
    | nil =>
      have hnone : satisfy isDigit rest = none := satisfy_of_stops (hrest.stops (by decide))
      simp [exactly, hnone] at h
    | cons c ds =>
      obtain ⟨hc, hds⟩ := List.forall_mem_cons.1 hds
      simp only [exactly, bind_apply, List.cons_append, satisfy_cons, hc, if_true, Option.bind_some] at h
      obtain ⟨r', hr', h⟩ := Option.bind_eq_some_iff.1 h
      cases h
      obtain ⟨ds', hds', heq⟩ := ih hds hr'
      exact ⟨ds', hds', heq⟩

theorem digits_of_field {w low high : Nat} (hds : ∀ c ∈ ds, isDigit c = true) (hrest : Ends rest)
    {r : Nat × List Char} (h : field w low high (ds ++ rest) = some r) :
    ∃ ds', (∀ c ∈ ds', isDigit c = true) ∧ r.2 = ds' ++ rest := by
  simp only [field, bind_apply, Option.bind_eq_some_iff] at h
  obtain ⟨digits, hdigits, h⟩ := h
  split at h
  case isTrue =>
    cases h
    exact digits_of_exactly hds hrest hdigits
  case isFalse => cases h

theorem char_digits (hds : ∀ c ∈ ds, isDigit c = true) (hc : isDigit c = false) (hrest : Stops (· == c) rest) :
    char c (ds ++ rest) = none := by
  cases ds with
  | nil => exact char_of_stops hrest
  | cons d ds => exact char_of_stops (stops_cons.2 (beq_of_apply (hds d List.mem_cons_self) hc))

theorem field_of_stops {w low high : Nat} (h : Stops isDigit cs) : field (w + 1) low high cs = none := by
  simp only [field, exactly, bind_apply, satisfy_of_stops h, Option.bind_none]

theorem day_digits (hds : ∀ c ∈ ds, isDigit c = true) (hrest : Ends rest) : day (ds ++ rest) = none := by
  rw [day, bind_apply]
  cases h : field 4 0 9999 (ds ++ rest) with
  | none => rfl
  | some r =>
    obtain ⟨ds', hds', heq⟩ := digits_of_field hds hrest h
    rw [Option.bind_some, bind_apply, heq, char_digits hds' (by decide) (hrest.stops (by decide))]
    rfl

theorem time_digits (hds : ∀ c ∈ ds, isDigit c = true) (hrest : Ends rest) : time (ds ++ rest) = none := by
  rw [time, bind_apply, discard_apply]
  cases h : field 2 0 23 (ds ++ rest) with
  | none => rfl
  | some r =>
    obtain ⟨ds', hds', heq⟩ := digits_of_field hds hrest h
    rw [Option.map_some, Option.bind_some, bind_apply, heq,
      char_digits hds' (by decide) (hrest.stops (by decide))]
    rfl

theorem Numeral.inBase_append (h : Numeral ds) {letter : Char} {base : Nat} (hletter : Stops (· == letter) rest) :
    inBase letter base p (ds ++ rest) = none := by
  obtain _ | ⟨d, tl⟩ := ds
  · exact absurd rfl h.ne_nil
  · by_cases hd : d = '0'
    · have htl : tl = [] := by simpa using h.lead (by rw [hd]; rfl)
      simp [inBase, hd, htl, char_of_stops hletter]
    · simp [inBase, hd]

def signed (negative : Bool) (ds : List Char) : List Char := if negative then '-' :: ds else ds

variable {negative : Bool}

theorem toList_toString (n : Int) : ∃ negative ds, (toString n).toList = signed negative ds ∧ Numeral ds ∧
    (if negative then -(valueIn 10 ds : Int) else valueIn 10 ds) = n := by
  rw [Int.toString_eq_repr, Int.repr_eq_if]
  split
  case isTrue hn =>
    refine ⟨false, Nat.toDigits 10 n.toNat, Nat.toList_repr, numeral_toDigits _, ?_⟩
    rw [valueIn_toDigits]
    exact Int.toNat_of_nonneg hn
  case isFalse hn =>
    refine ⟨true, Nat.toDigits 10 (-n).toNat, ?_, numeral_toDigits _, ?_⟩
    · simp [signed]
    · rw [valueIn_toDigits, if_pos rfl]
      omega

theorem sign_signed (h : Numeral ds) :
    sign (signed negative ds ++ rest) = some (negative, ds ++ rest) := by
  cases negative with
  | true => simp [sign, signed]
  | false =>
    have hplus : char '+' (ds ++ rest) = none := char_of_stops (h.stops (by decide))
    have hminus : char '-' (ds ++ rest) = none := char_of_stops (h.stops (by decide))
    simp [sign, signed, hplus, hminus]

theorem stops_signed (h : Numeral ds) (hc : isDigit c = false) (hminus : c ≠ '-') :
    Stops (· == c) (signed negative ds ++ rest) := by
  cases negative with
  | true => simpa [signed] using hminus.symm
  | false => exact h.stops hc

theorem integer_signed (h : Numeral ds) (hrest : Ends rest)
    (hn : (if negative then -(valueIn 10 ds : Int) else valueIn 10 ds) = n) (hfits : fits n = true) :
    integer (signed negative ds ++ rest) = some (n, rest) := by
  have hbase {letter : Char} {base : Nat} {p : Char → Bool} (hletter : Stops (· == letter) rest) :
      inBase letter base p (signed negative ds ++ rest) = none := by
    cases negative with
    | true => simp [inBase, signed]
    | false => exact h.inBase_append hletter
  have hdecimal : decimal (signed negative ds ++ rest) = some (n, rest) := by
    simp [decimal, sign_signed h, h.wholePart_append hrest, hn, checked, hfits]
  rw [integer, orElse_apply, orElse_apply, orElse_apply, hbase (hrest.stops (by decide)),
    hbase (hrest.stops (by decide)), hbase (hrest.stops (by decide)), hdecimal]
  rfl

theorem date_signed (h : Numeral ds) (hrest : Ends rest) :
    date (signed negative ds ++ rest) = none := by
  rw [date, orElse_apply, bind_apply, signed]
  cases negative with
  | true =>
    have hminus : Stops isDigit ('-' :: ds ++ rest) := stops_cons.2 (by decide)
    have hday : day ('-' :: ds ++ rest) = none := by rw [day, bind_apply, field_of_stops hminus, Option.bind_none]
    have htime : time ('-' :: ds ++ rest) = none := by
      rw [time, bind_apply, discard_apply, field_of_stops hminus, Option.map_none, Option.bind_none]
    rw [if_pos rfl, hday, htime]
    rfl
  | false =>
    rw [if_neg Bool.false_ne_true, day_digits h.digits hrest, time_digits h.digits hrest]
    rfl

theorem fractional_signed (h : Numeral ds) (hrest : Ends rest) :
    fractional (signed negative ds ++ rest) = none := by
  have hpoint : char '.' rest = none := char_of_stops (hrest.stops (by decide))
  have hpower : satisfy (fun c => c == 'e' || c == 'E') rest = none := satisfy_of_stops (hrest.stops (by decide))
  have hfraction : option (do char '.'; digits isDigit) rest = some (none, rest) :=
    option_of_none (by simp [hpoint])
  have hexponent : option exponent rest = some (none, rest) := option_of_none (by simp [exponent, hpower])
  simp [fractional, sign_signed h, h.wholePart_append hrest, hfraction, hexponent]

theorem special_signed (h : Numeral ds) : special (signed negative ds ++ rest) = none := by
  have hinf : char 'i' (ds ++ rest) = none := char_of_stops (h.stops (by decide))
  have hnan : char 'n' (ds ++ rest) = none := char_of_stops (h.stops (by decide))
  simp [special, sign_signed h, hinf, hnan]

theorem anyString_of_stops (hdouble : Stops (· == '"') cs) (hsingle : Stops (· == '\'') cs) :
    anyString cs = none := by
  simp [anyString, quotedLines, quoted, literalLines, literal, char_of_stops hdouble, char_of_stops hsingle]

theorem truth_of_stops (ht : Stops (· == 't') cs) (hf : Stops (· == 'f') cs) : truth cs = none := by
  simp [truth, char_of_stops ht, char_of_stops hf]

/-- A number is neither a string nor a date nor a float, and read whole. -/
theorem scalar_integer (hfits : fits n = true) (hrest : Ends rest) :
    scalar ((toString n).toList ++ rest) = some (.integer n, rest) := by
  obtain ⟨negative, ds, htext, h, hn⟩ := toList_toString n
  have hstring : anyString (signed negative ds ++ rest) = none :=
    anyString_of_stops (stops_signed h (by decide) (by decide)) (stops_signed h (by decide) (by decide))
  have htruth : truth (signed negative ds ++ rest) = none :=
    truth_of_stops (stops_signed h (by decide) (by decide)) (stops_signed h (by decide) (by decide))
  rw [htext]
  simp [scalar, hstring, htruth, text, date_signed h hrest, fractional_signed h hrest, special_signed h,
    integer_signed h hrest hn hfits]

theorem scalar_boolean {b : Bool} : scalar ((truthText b).toList ++ rest) = some (.boolean b, rest) := by
  have hdouble : Stops (· == '"') ((truthText b).toList ++ rest) := by cases b <;> simp [truthText]
  have hsingle : Stops (· == '\'') ((truthText b).toList ++ rest) := by cases b <;> simp [truthText]
  have htruth : truth ((truthText b).toList ++ rest) = some (b, rest) := by cases b <;> simp [truth, truthText]
  simp [scalar, anyString_of_stops hdouble hsingle, htruth]

theorem scalar_string {s : String} (hrest : Ends rest) :
    scalar ((stringText s).toList ++ rest) = some (.string s, rest) := by
  simp [scalar, anyString_stringText s (hrest.stops (by decide)) (hrest.stops (by decide))]

end SoundGraph.Toml
