import SoundGraph.Proofs.Toml.Numbers
import SoundGraph.Proofs.Toml.Lossless

/-! Values on one line, and arrays of them, come back from their text. The first character of a text tells
the arrays from the values that hold no other, and neither can be taken for what stands between the items
of an array. -/

namespace SoundGraph.Toml

open Scan

def Starts (p : Char → Bool) (cs : List Char) : Prop := ∃ c tl, cs = c :: tl ∧ p c = true

variable {p q : Char → Bool} {c : Char} {cs l rest : List Char} {depth fuel : Nat} {v : Value}
  {items : List Value}

theorem Starts.stops (h : Starts p cs) (hpq : ∀ c, p c = true → q c = false) : Stops q (cs ++ rest) := by
  obtain ⟨c, tl, rfl, hc⟩ := h
  exact stops_cons.2 (hpq c hc)

theorem Starts.mono (h : Starts p cs) (hpq : ∀ c, p c = true → q c = true) : Starts q cs := by
  obtain ⟨c, tl, rfl, hc⟩ := h
  exact ⟨c, tl, rfl, hpq c hc⟩

def isScalarHead (c : Char) : Bool := isDigit c || ['"', '\'', '-', 't', 'f'].contains c

def isPlainHead (c : Char) : Bool := isScalarHead c || c == '['

theorem isPlainHead_of_isScalarHead (h : isScalarHead c = true) : isPlainHead c = true := by
  rw [isPlainHead, h, Bool.true_or]

theorem starts_stringText (s : String) : Starts isScalarHead (stringText s).toList := by
  rw [stringText]
  split <;> simp [Starts, isScalarHead]

theorem starts_toString (n : Int) : Starts isScalarHead (toString n).toList := by
  obtain ⟨negative, ds, htext, h, -⟩ := toList_toString n
  rw [htext]
  cases negative with
  | true => exact ⟨'-', ds, rfl, rfl⟩
  | false =>
    obtain _ | ⟨d, ds⟩ := ds
    · exact absurd rfl h.ne_nil
    · exact ⟨d, ds, rfl, by simp [isScalarHead, h.digits d]⟩

theorem starts_truthText (b : Bool) : Starts isScalarHead (truthText b).toList := by
  cases b <;> simp [Starts, truthText, isScalarHead]

theorem value_of_starts (h : Starts isScalarHead cs) : value depth (cs ++ rest) = scalar (cs ++ rest) := by
  cases depth with
  | zero => rfl
  | succ depth =>
    have harray : char '[' (cs ++ rest) = none :=
      char_of_stops (h.stops fun c hc => beq_of_apply hc (by decide))
    have htable : char '{' (cs ++ rest) = none :=
      char_of_stops (h.stops fun c hc => beq_of_apply hc (by decide))
    simp [value, array, inlineTable, harray, htable]

def isFiller (c : Char) : Bool := [' ', '\t', '#', '\n', '\r'].contains c

theorem mem_of_isFiller (h : isFiller c = true) : c ∈ [' ', '\t', '#', '\n', '\r'] := List.contains_iff_mem.1 h

theorem filler_append (hl : l.all isBlank = true) (h : Stops isFiller rest) :
    filler (fuel + 1) (l ++ rest) = some ((), rest) := by
  have hblank : Stops isBlank rest := h.mono (by simp +contextual [isFiller, isBlank])
  rw [filler, bind_apply, blanks_append hl hblank]
  cases rest with
  | nil => rfl
  | cons c rest =>
    have hc : ¬c = ' ' ∧ ¬c = '\t' ∧ ¬c = '#' ∧ ¬c = '\n' ∧ ¬c = '\r' := by simpa [isFiller] using h
    simp [hc]

theorem filler_of_stops (h : Stops isFiller rest) : filler (fuel + 1) rest = some ((), rest) :=
  filler_append (l := []) rfl h

theorem filler_newline : filler (fuel + 1) ('\n' :: cs) = filler fuel cs := by
  have hblanks : blanks ('\n' :: cs) = some ((), '\n' :: cs) := blanks_of_stops (by simp [isBlank])
  rw [filler, bind_apply, hblanks]
  rfl

theorem Plain.starts (h : Plain depth v) : Starts isPlainHead (valueText v).toList := by
  cases h with
  | string s => exact (starts_stringText s).mono fun _ => isPlainHead_of_isScalarHead
  | integer => exact (starts_toString _).mono fun _ => isPlainHead_of_isScalarHead
  | boolean b => exact (starts_truthText b).mono fun _ => isPlainHead_of_isScalarHead
  | array =>
    rw [valueText]
    split <;> simp [Starts, isPlainHead]

theorem Plain.stops_filler (h : Plain depth v) : Stops isFiller ((valueText v).toList ++ rest) :=
  h.starts.stops fun _ => apply_eq_false mem_of_isFiller (by decide)

theorem Plain.option_bracket (h : Plain depth v) :
    option (char ']') ((valueText v).toList ++ rest) = some (none, (valueText v).toList ++ rest) :=
  option_of_none (char_of_stops (h.starts.stops fun _ hc => beq_of_apply hc (by decide)))

theorem itemTexts_eq_map (items : List Value) : itemTexts items = items.map valueText := by
  induction items with
  | nil => rfl
  | cons v items ih => rw [itemTexts, ih, List.map_cons]

def itemLines (items : List Value) : List Char :=
  items.flatMap fun v => "    ".toList ++ (valueText v).toList ++ ",\n".toList

theorem toList_join_itemLines (items : List Value) :
    (String.join ((items.map valueText).map fun t => "    " ++ t ++ ",\n")).toList = itemLines items := by
  simp [String.toList_join, itemLines, List.flatMap_map]

def ReadsBack (scan : Scan Value) (v : Value) : Prop :=
  ∀ rest, Ends rest → scan ((valueText v).toList ++ rest) = some (v, rest)

section

variable {scan : Scan Value}

theorem arrayRest_close (h : filler fuel cs = some ((), ']' :: rest)) :
    arrayRest scan (fuel + 1) cs = some ([], rest) := by
  simp [arrayRest, h, option_of_some (s := char ']') char_self]

variable (hplain : Plain depth v) (hread : ReadsBack scan v)
include hplain hread

/-- An item with a comma behind it. -/
theorem arrayRest_more (h : filler (fuel + 1) cs = some ((), (valueText v).toList ++ ',' :: rest)) :
    arrayRest scan (fuel + 2) cs = (arrayRest scan (fuel + 1) rest).map fun r => (v :: r.1, r.2) := by
  have hvalue := hread (',' :: rest) (by simp [Ends])
  have hfiller : filler (fuel + 1) (',' :: rest) = some ((), ',' :: rest) :=
    filler_of_stops (stops_cons.2 (by decide))
  have hcomma : option (char ',') (',' :: rest) = some (some (), rest) := option_of_some char_self
  rw [arrayRest, bind_apply, h]
  simp [hplain.option_bracket, hvalue, hfiller, hcomma]

/-- The last item, without a comma behind it. -/
theorem arrayRest_last (h : filler (fuel + 1) cs = some ((), (valueText v).toList ++ ']' :: rest)) :
    arrayRest scan (fuel + 2) cs = some ([v], rest) := by
  have hvalue := hread (']' :: rest) (by simp [Ends])
  have hfiller : filler (fuel + 1) (']' :: rest) = some ((), ']' :: rest) :=
    filler_of_stops (stops_cons.2 (by decide))
  have hcomma : option (char ',') (']' :: rest) = some (none, ']' :: rest) := option_of_none (by simp)
  simp [arrayRest, h, hplain.option_bracket, hvalue, hfiller, hcomma]

end

theorem arrayRest_itemLines {scan : Scan Value} (hread : ∀ v ∈ items, ReadsBack scan v)
    (hplain : ∀ v ∈ items, Plain depth v) (hfuel : items.length + 3 ≤ fuel) :
    arrayRest scan fuel ('\n' :: (itemLines items ++ ']' :: rest)) = some (items, rest) := by
  induction items generalizing fuel with
  | nil =>
    obtain ⟨fuel, rfl⟩ := Nat.exists_eq_add_of_le' hfuel
    exact arrayRest_close (filler_newline.trans (filler_of_stops (stops_cons.2 (by decide))))
  | cons v items ih =>
    obtain ⟨fuel, rfl⟩ := Nat.exists_eq_add_of_le' hfuel
    obtain ⟨hv, hread⟩ := List.forall_mem_cons.1 hread
    obtain ⟨hplainv, hplain⟩ := List.forall_mem_cons.1 hplain
    have htext : itemLines (v :: items) ++ ']' :: rest =
        "    ".toList ++ ((valueText v).toList ++ ',' :: '\n' :: (itemLines items ++ ']' :: rest)) := by
      simp [itemLines]
    have hfiller : filler (fuel + items.length + 1 + 1 + 1) ('\n' :: (itemLines (v :: items) ++ ']' :: rest)) =
        some ((), (valueText v).toList ++ ',' :: '\n' :: (itemLines items ++ ']' :: rest)) := by
      rw [filler_newline, htext]
      exact filler_append (by decide) (hplainv.stops_filler)
    have hrest : arrayRest scan (fuel + items.length + 3) ('\n' :: (itemLines items ++ ']' :: rest)) =
        some (items, rest) :=
      ih hread hplain (by omega)
    rw [List.length_cons, show fuel + (items.length + 1 + 3) = fuel + items.length + 1 + 1 + 2 by omega,
      arrayRest_more hplainv hv hfiller, hrest]
    rfl

theorem length_le_itemLines (items : List Value) : items.length ≤ (itemLines items).length := by
  induction items with
  | nil => exact Nat.le_refl _
  | cons v items ih =>
    have hpos : 0 < ("    ".toList ++ (valueText v).toList ++ ",\n".toList).length := by simp
    rw [itemLines, List.flatMap_cons, List.length_append, ← itemLines, List.length_cons]
    omega

theorem value_of_arrayRest {r : List Value × List Char} (h : arrayRest (value depth) (cs.length + 1) cs = some r) :
    value (depth + 1) ('[' :: cs) = some (.array r.1, r.2) := by
  simp [value, array, h]

theorem value_array (hread : ∀ v ∈ items, ReadsBack (value depth) v) (hplain : ∀ v ∈ items, Plain depth v) :
    value (depth + 1) ((valueText (.array items)).toList ++ rest) = some (.array items, rest) := by
  rw [valueText, itemTexts_eq_map]
  match items with
  | [] => exact value_of_arrayRest (r := ([], rest)) (arrayRest_close (filler_of_stops (stops_cons.2 (by decide))))
  | [v] =>
    have hplainv := hplain v List.mem_cons_self
    have hrest : arrayRest (value depth) (((valueText v).toList ++ ']' :: rest).length + 1)
        ((valueText v).toList ++ ']' :: rest) = some ([v], rest) := by
      rw [List.length_append]
      exact arrayRest_last hplainv (hread v List.mem_cons_self) (filler_of_stops hplainv.stops_filler)
    simpa using value_of_arrayRest hrest
  | v :: w :: items =>
    have htext : ("[\n" ++ String.join (((v :: w :: items).map valueText).map fun t => "    " ++ t ++ ",\n") ++
        "]").toList ++ rest = '[' :: '\n' :: (itemLines (v :: w :: items) ++ ']' :: rest) := by
      rw [String.toList_append, String.toList_append, toList_join_itemLines]
      simp
    have hlength := length_le_itemLines (v :: w :: items)
    rw [if_neg (by simp), htext]
    refine value_of_arrayRest (r := (_, _)) (arrayRest_itemLines hread hplain ?_)
    simp only [List.length_cons, List.length_append] at hlength ⊢
    omega

theorem Plain.readsBack (h : Plain depth v) : ReadsBack (value depth) v := by
  induction h with
  | string s =>
    intro rest hrest
    rw [valueText, value_of_starts (starts_stringText s), scalar_string hrest]
  | integer hfits =>
    intro rest hrest
    rw [valueText, value_of_starts (starts_toString _), scalar_integer hfits hrest]
  | boolean b =>
    intro rest hrest
    rw [valueText, value_of_starts (starts_truthText b), scalar_boolean]
  | array hplain ih => exact fun rest _ => value_array ih hplain

end SoundGraph.Toml
