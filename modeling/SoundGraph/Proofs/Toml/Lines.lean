import SoundGraph.Proofs.Toml.Values

/-! Keys, the lines of statements, and whole texts of them: each statement that is written as one line is
read back from it, and an empty line between two groups is read as nothing. What a line starts with tells
whether it is a header, a pair or neither. -/

namespace SoundGraph.Toml

open Scan

variable {cs l rest rest' : List Char} {key : String} {path keys : List String} {depth fuel : Nat}
  {v : Value}

def isKeyHead (c : Char) : Bool := isBareKey c || c == '"'

theorem starts_keyText (key : String) : Starts isKeyHead (keyText key).toList := by
  rw [keyText]
  split
  case isTrue h =>
    obtain ⟨hne, hbare⟩ := h
    cases hkey : key.toList with
    | nil => exact absurd (String.toList_eq_nil_iff.1 hkey) hne
    | cons c tl =>
      rw [hkey] at hbare
      exact ⟨c, tl, rfl, by simp [isKeyHead, List.all_eq_true.1 hbare c List.mem_cons_self]⟩
  case isFalse => simp [Starts, isKeyHead]

theorem simpleKey_keyText (key : String) (hrest : Stops isBareKey rest) :
    simpleKey ((keyText key).toList ++ rest) = some (key, rest) := by
  rw [keyText]
  split
  case isTrue h =>
    obtain ⟨hne, hbare⟩ := h
    have hstops : ∀ {c}, isBareKey c = false → Stops (· == c) (key.toList ++ rest) := by
      intro c hc
      refine stops_append (fun d hd => beq_of_apply ?_ hc) (by simpa using hne)
      exact List.all_eq_true.1 hbare d (List.mem_of_mem_head? hd)
    have hdouble : char '"' (key.toList ++ rest) = none := char_of_stops (hstops (by decide))
    have hsingle : char '\'' (key.toList ++ rest) = none := char_of_stops (hstops (by decide))
    have hspan : span isBareKey (key.toList ++ rest) = some (key.toList, rest) :=
      span_append (fun c hc => List.all_eq_true.1 hbare c hc) hrest
    have hempty : key.toList.isEmpty = false := by simpa using hne
    simp only [simpleKey, quoted, literal, orElse_apply, bind_apply, hdouble, hsingle, hspan, Option.bind_none,
      Option.none_or, Option.bind_some, hempty]
    simp
  case isFalse => simp [simpleKey, quoted_escapeLine]

theorem pathText_singleton (key : String) : pathText [key] = keyText key := rfl

theorem toList_pathText_cons (key : String) (hkeys : keys ≠ []) :
    (pathText (key :: keys)).toList = (keyText key).toList ++ '.' :: (pathText keys).toList := by
  rw [pathText, List.map_cons, String.intercalate_cons_of_ne_nil (by simpa using hkeys)]
  simp [pathText]

/-- A dotted key is read whole, with the blanks behind it. -/
theorem keyRest_pathText (hkeys : keys ≠ []) (hfuel : keys.length ≤ fuel) (hbare : Stops isBareKey rest)
    (hblanks : blanks rest = some ((), rest')) (hpoint : Stops (· == '.') rest') :
    keyRest fuel ((pathText keys).toList ++ rest) = some (keys, rest') := by
  induction keys generalizing fuel with
  | nil => exact absurd rfl hkeys
  | cons key keys ih =>
    obtain ⟨fuel, rfl⟩ := Nat.exists_eq_add_of_le' hfuel
    have hstart (cs : List Char) : blanks ((keyText key).toList ++ cs) = some ((), (keyText key).toList ++ cs) :=
      blanks_of_stops ((starts_keyText key).stops fun _ => apply_eq_false mem_of_isBlank (by decide))
    by_cases hlast : keys = []
    · have hnone : option (char '.') rest' = some (none, rest') := option_of_none (char_of_stops hpoint)
      rw [hlast]
      simp [pathText_singleton, keyRest, hstart, simpleKey_keyText key hbare, hblanks, hnone]
    · have hrest := ih hlast (Nat.le_add_left keys.length fuel)
      have hread (cs : List Char) : simpleKey ((keyText key).toList ++ '.' :: cs) = some (key, '.' :: cs) :=
        simpleKey_keyText key (stops_cons.2 (by decide))
      have hgap (cs : List Char) : blanks ('.' :: cs) = some ((), '.' :: cs) :=
        blanks_of_stops (stops_cons.2 (by decide))
      have hmore (cs : List Char) : option (char '.') ('.' :: cs) = some (some (), cs) := option_of_some char_self
      rw [toList_pathText_cons key hlast, List.append_assoc, List.cons_append, List.length_cons, ← Nat.add_assoc]
      simp [keyRest, hstart, hread, hgap, hmore, hrest]

theorem length_le_pathText (keys : List String) : keys.length ≤ (pathText keys).toList.length := by
  induction keys with
  | nil => exact Nat.zero_le _
  | cons key keys ih =>
    by_cases hlast : keys = []
    · obtain ⟨c, tl, htext, -⟩ := starts_keyText key
      rw [hlast, pathText_singleton, htext]
      simp
    · rw [toList_pathText_cons key hlast, List.length_append, List.length_cons, List.length_cons]
      omega

theorem dottedKey_pathText (path : List String) (hdepth : path.length + 1 < depthLimit) (hbare : Stops isBareKey rest)
    (hblanks : blanks rest = some ((), rest')) (hpoint : Stops (· == '.') rest') :
    dottedKey ((pathText (path ++ [key])).toList ++ rest) = some ((path, key), rest') := by
  have hlength := length_le_pathText (path ++ [key])
  have hfuel : (path ++ [key]).length ≤ ((pathText (path ++ [key])).toList ++ rest).length + 1 :=
    Nat.le_succ_of_le (Nat.le_trans hlength (List.sublist_append_left _ rest).length_le)
  have hread : keyRest (((pathText (path ++ [key])).toList ++ rest).length + 1)
      ((pathText (path ++ [key])).toList ++ rest) = some (path ++ [key], rest') :=
    keyRest_pathText (by simp) hfuel hbare hblanks hpoint
  rw [dottedKey, bind_apply, fuel_apply, Option.bind_some, bind_apply, hread]
  simp [hdepth]

theorem pairOf_valueText (key : String) (h : Plain depth v) (hrest : Ends rest) :
    pairOf (value depth) ((keyText key ++ " = " ++ valueText v).toList ++ rest) = some (([], key, v), rest) := by
  have htext : (keyText key ++ " = " ++ valueText v).toList ++ rest =
      (keyText key).toList ++ ([' '] ++ '=' :: ([' '] ++ ((valueText v).toList ++ rest))) := by
    simp
  have hkey (cs : List Char) :
      dottedKey ((keyText key).toList ++ ([' '] ++ '=' :: cs)) = some (([], key), '=' :: cs) :=
    dottedKey_pathText [] (by decide) (stops_cons.2 (by decide))
      (blanks_append (by decide) (stops_cons.2 (by decide))) (stops_cons.2 (by decide))
  have hblank : blanks ([' '] ++ ((valueText v).toList ++ rest)) = some ((), (valueText v).toList ++ rest) :=
    blanks_append (by decide) (h.starts.stops fun _ => apply_eq_false mem_of_isBlank (by decide))
  rw [htext, pairOf, bind_apply, hkey]
  simp only [Option.bind_some, bind_apply, char_self, hblank, h.readsBack rest hrest]
  rfl

def Statement.text : Statement → String
  | .header path key => "[" ++ pathText (path ++ [key]) ++ "]\n"
  | .arrayHeader path key => "[[" ++ pathText (path ++ [key]) ++ "]]\n"
  | .pair _ key v => keyText key ++ " = " ++ valueText v ++ "\n"

def Statement.Writable : Statement → Prop
  | .header path _ => path.length + 1 < depthLimit
  | .arrayHeader path _ => path.length + 1 < depthLimit
  | .pair path _ v => path = [] ∧ Plain (depthLimit - 1) v

theorem lineEnd_newline : lineEnd ('\n' :: cs) = some ((), cs) := by
  have hblanks : blanks ('\n' :: cs) = some ((), '\n' :: cs) := blanks_of_stops (stops_cons.2 (by decide))
  have hcomment : option comment ('\n' :: cs) = some (none, '\n' :: cs) := option_of_none (by simp [comment])
  simp [lineEnd, hblanks, hcomment]

theorem dottedKey_bracket (hdepth : path.length + 1 < depthLimit) :
    dottedKey ((pathText (path ++ [key])).toList ++ ']' :: cs) = some ((path, key), ']' :: cs) :=
  dottedKey_pathText path hdepth (stops_cons.2 (by decide)) (blanks_of_stops (stops_cons.2 (by decide)))
    (stops_cons.2 (by decide))

theorem starts_pathText (hkeys : keys ≠ []) : Starts isKeyHead (pathText keys).toList := by
  cases keys with
  | nil => exact absurd rfl hkeys
  | cons key keys =>
    obtain ⟨c, tl, htext, hc⟩ := starts_keyText key
    by_cases hlast : keys = []
    · exact ⟨c, tl, by rw [hlast, pathText_singleton, htext], hc⟩
    · exact ⟨c, _, by rw [toList_pathText_cons key hlast, htext]; rfl, hc⟩

theorem header_header (key : String) (cs : List Char) (hdepth : path.length + 1 < depthLimit) :
    header ('[' :: ((pathText (path ++ [key])).toList ++ ']' :: cs)) = some (.header path key, cs) := by
  have hbracket : char '[' ((pathText (path ++ [key])).toList ++ ']' :: cs) = none :=
    char_of_stops ((starts_pathText (by simp)).stops fun _ hc => beq_of_apply hc (by decide))
  simp [header, hbracket, dottedKey_bracket hdepth]

theorem header_arrayHeader (key : String) (cs : List Char) (hdepth : path.length + 1 < depthLimit) :
    header ('[' :: '[' :: ((pathText (path ++ [key])).toList ++ ']' :: ']' :: cs)) =
      some (.arrayHeader path key, cs) := by
  simp [header, dottedKey_bracket hdepth]

theorem header_of_stops (h : Stops (· == '[') cs) : header cs = none := by simp [header, char_of_stops h]

theorem pair_text (h : Plain (depthLimit - 1) v) :
    (header <|> pair) ((keyText key ++ " = " ++ valueText v).toList ++ '\n' :: rest) =
      some (.pair [] key v, '\n' :: rest) := by
  have hends : Ends ('\n' :: rest) := by simp [Ends]
  have hread := pairOf_valueText key h hends
  have hheader : header ((keyText key ++ " = " ++ valueText v).toList ++ '\n' :: rest) = none := by
    rw [String.toList_append, String.toList_append, List.append_assoc, List.append_assoc]
    exact header_of_stops ((starts_keyText key).stops fun _ hc => beq_of_apply hc (by decide))
  rw [orElse_apply, hheader, pair, bind_apply, hread]
  rfl

theorem line_of_statement {st : Statement} (hblank : Stops isBlank cs)
    (h : (header <|> pair) cs = some (st, '\n' :: rest)) : line cs = some (some st, rest) := by
  simp [line, blanks_of_stops hblank, option_of_some h, lineEnd_newline]

theorem line_text {st : Statement} (h : st.Writable) : line (st.text.toList ++ rest) = some (some st, rest) := by
  cases st with
  | header path key =>
    have hread := header_header key ('\n' :: rest) h
    have htext : (Statement.header path key).text.toList ++ rest =
        '[' :: ((pathText (path ++ [key])).toList ++ ']' :: '\n' :: rest) := by
      simp [Statement.text]
    rw [htext]
    exact line_of_statement (stops_cons.2 (by decide)) (by simp [hread])
  | arrayHeader path key =>
    have hread := header_arrayHeader key ('\n' :: rest) h
    have htext : (Statement.arrayHeader path key).text.toList ++ rest =
        '[' :: '[' :: ((pathText (path ++ [key])).toList ++ ']' :: ']' :: '\n' :: rest) := by
      simp [Statement.text]
    rw [htext]
    exact line_of_statement (stops_cons.2 (by decide)) (by simp [hread])
  | pair path key v =>
    obtain ⟨rfl, hplain⟩ := h
    have htext : (Statement.pair [] key v).text.toList ++ rest =
        (keyText key ++ " = " ++ valueText v).toList ++ '\n' :: rest := by
      simp [Statement.text]
    rw [htext]
    refine line_of_statement ?_ (pair_text hplain)
    rw [String.toList_append, String.toList_append, List.append_assoc, List.append_assoc]
    exact (starts_keyText key).stops fun _ => apply_eq_false mem_of_isBlank (by decide)

/-- Only a bracket or a key opens a statement. -/
theorem statement_of_stops (hblank : Stops isBlank cs) (hkey : Stops isKeyHead cs) (hquote : Stops (· == '\'') cs)
    (hbracket : Stops (· == '[') cs) : (header <|> pair) cs = none := by
  have hdouble : char '"' cs = none := char_of_stops (hkey.mono (by simp +contextual [isKeyHead]))
  have hbare : span isBareKey cs = some ([], cs) := span_of_stops (hkey.mono (by simp +contextual [isKeyHead]))
  have hsimple : simpleKey cs = none := by
    simp only [simpleKey, quoted, literal, orElse_apply, bind_apply, hdouble, char_of_stops hquote, hbare]
    rfl
  have hkeys : dottedKey cs = none := by
    simp [dottedKey, keyRest, blanks_of_stops hblank, hsimple]
  simp [header_of_stops hbracket, pair, pairOf, hkeys]

/-- An empty line has no statement. -/
theorem line_newline : line ('\n' :: rest) = some (none, rest) := by
  have hblank : blanks ('\n' :: rest) = some ((), '\n' :: rest) := blanks_of_stops (stops_cons.2 (by decide))
  have hnone : option (header <|> pair) ('\n' :: rest) = some (none, '\n' :: rest) :=
    option_of_none (statement_of_stops (stops_cons.2 (by decide)) (stops_cons.2 (by decide))
      (stops_cons.2 (by decide)) (stops_cons.2 (by decide)))
  simp [line, hblank, hnone, lineEnd_newline]

theorem line_byteOrderMark : line ('\ufeff' :: cs) = none := by
  have hblank : blanks ('\ufeff' :: cs) = some ((), '\ufeff' :: cs) := blanks_of_stops (stops_cons.2 (by decide))
  have hnone : option (header <|> pair) ('\ufeff' :: cs) = some (none, '\ufeff' :: cs) :=
    option_of_none (statement_of_stops (stops_cons.2 (by decide)) (stops_cons.2 (by decide))
      (stops_cons.2 (by decide)) (stops_cons.2 (by decide)))
  have hcomment : option comment ('\ufeff' :: cs) = some (none, '\ufeff' :: cs) :=
    option_of_none (by simp [comment])
  have hnewline : newline ('\ufeff' :: cs) = none := newline_of_stops (stops_cons.2 (by decide))
  simp [line, hblank, hnone, lineEnd, hcomment, hnewline, endOfText]

def Reads (cs : List Char) (sts : List Statement) : Prop :=
  ∀ fuel read, cs.length < fuel → lines fuel read cs = some (read.reverse ++ sts, [])

theorem reads_nil : Reads [] [] := by
  intro fuel read hfuel
  obtain ⟨fuel, rfl⟩ := exists_succ_of_lt hfuel
  simp [lines]

variable {sts sts' : List Statement}

theorem Reads.line {st : Option Statement} (h : Reads cs sts) (hl : l ≠ [])
    (hline : Toml.line (l ++ cs) = some (st, cs)) : Reads (l ++ cs) (st.toList ++ sts) := by
  intro fuel read hfuel
  obtain ⟨fuel, rfl⟩ := exists_succ_of_lt hfuel
  obtain ⟨c, tl, rfl⟩ := List.exists_cons_of_ne_nil hl
  have hrest := h fuel (st.toList ++ read) (by simp at hfuel; omega)
  have hreverse : (st.toList ++ read).reverse = read.reverse ++ st.toList := by cases st <;> simp
  rw [hreverse, List.append_assoc] at hrest
  rw [List.cons_append] at hline ⊢
  simp [lines, hline, hrest]

def linesText (sts : List Statement) : String := String.join (sts.map Statement.text)

theorem Statement.text_ne_nil (st : Statement) : st.text.toList ≠ [] := by
  cases st <;> simp [Statement.text]

theorem Reads.linesText (h : Reads cs sts') (hsts : ∀ st ∈ sts, st.Writable) :
    Reads ((linesText sts).toList ++ cs) (sts ++ sts') := by
  induction sts with
  | nil => simpa [Toml.linesText] using h
  | cons st sts ih =>
    obtain ⟨hst, hsts⟩ := List.forall_mem_cons.1 hsts
    have hread := (ih hsts).line st.text_ne_nil (line_text hst)
    simpa [Toml.linesText] using hread

/-- Groups of statements with an empty line between them. -/
theorem reads_blocks {blocks : List (List Statement)} (h : ∀ sts ∈ blocks, ∀ st ∈ sts, st.Writable) :
    Reads ("\n".intercalate (blocks.map Toml.linesText)).toList blocks.flatten := by
  induction blocks with
  | nil => exact reads_nil
  | cons sts blocks ih =>
    obtain ⟨hsts, h⟩ := List.forall_mem_cons.1 h
    by_cases hlast : blocks = []
    · simpa [hlast] using reads_nil.linesText hsts
    · have hread := ((ih h).line (l := ['\n']) (by simp) line_newline).linesText hsts
      rw [List.map_cons, String.intercalate_cons_of_ne_nil (by simpa using hlast)]
      simpa using hread

end SoundGraph.Toml
