import SoundGraph.Proofs.Toml.Lines

/-! The text of a table is the lines of its statements, section by section, and reads as those
statements, as long as not too many tables are around each other. -/

namespace SoundGraph.Toml

open Scan

variable {cs : List Char} {sts : List Statement} {text : String} {table : Table}

/-- A text that reads as lines has no byte order mark in front of them. -/
theorem Reads.head?_ne (h : Reads cs sts) : cs.head? ≠ some '\ufeff' := by
  intro hhead
  obtain ⟨tl, rfl⟩ : ∃ tl, cs = '\ufeff' :: tl := List.head?_eq_some_iff.1 hhead
  have hread := h (tl.length + 2) [] (by simp)
  simp [lines, line_byteOrderMark] at hread

theorem parse_of_reads (h : Reads text.toList sts) : parse text = assemble sts := by
  have hhead := h.head?_ne
  have hread := h (text.toList.length + 1) [] (Nat.lt_succ_self _)
  rw [parse]
  simp only
  split
  case h_1 heq => exact absurd (by rw [heq]; rfl) hhead
  case h_2 => simp [StateT.run, hread]

def pairs (table : Table) : List Statement :=
  table.filterMap fun (key, v) => if v.isTable ∨ v.isTables then none else some (.pair [] key v)

mutual
def blocks (path : List String) (key : String) : Value → List (List Statement)
  | .table entries => (.header path key :: pairs entries) :: blocksOf (path ++ [key]) entries
  | .array items => if (Value.array items).isTables then itemBlocks path key items else []
  | _ => []

def itemBlocks (path : List String) (key : String) : List Value → List (List Statement)
  | .table entries :: rest =>
    (.arrayHeader path key :: pairs entries) :: blocksOf (path ++ [key]) entries ++ itemBlocks path key rest
  | _ :: rest => itemBlocks path key rest
  | [] => []

def blocksOf (path : List String) : List (String × Value) → List (List Statement)
  | [] => []
  | (key, v) :: rest => blocks path key v ++ blocksOf path rest
end

theorem plainText_eq (table : Table) : plainText table = linesText (pairs table) := by
  rw [plainText, linesText, pairs, List.map_filterMap]
  congr 2
  funext entry
  obtain ⟨key, v⟩ := entry
  simp only
  split <;> rfl

def Section.whole (s : Section) : String := s.header ++ s.body

theorem linesText_cons (st : Statement) (sts : List Statement) :
    linesText (st :: sts) = st.text ++ linesText sts := by
  simp [linesText]

def Spelled (v : Value) : Prop :=
  ∀ path key, (sections (path ++ [key]) v).map Section.whole = (blocks path key v).map linesText

theorem sectionsOf_eq_of_spelled {table : Table} (path : List String) (h : ∀ entry ∈ table, Spelled entry.2) :
    (sectionsOf path table).map Section.whole = (blocksOf path table).map linesText := by
  induction table with
  | nil => rfl
  | cons entry table ih =>
    obtain ⟨key, v⟩ := entry
    obtain ⟨hv, h⟩ := List.forall_mem_cons.1 h
    rw [sectionsOf, blocksOf, List.map_append, List.map_append, hv path key, ih h]

theorem itemSections_eq_of_spelled {items : List Value} (path : List String) (key : String)
    (h : ∀ entries, .table entries ∈ items → ∀ entry ∈ entries, Spelled entry.2) :
    (itemSections (path ++ [key]) items).map Section.whole = (itemBlocks path key items).map linesText := by
  induction items with
  | nil => rfl
  | cons v items ih =>
    have hrest := ih fun entries hentries => h entries (List.mem_cons_of_mem v hentries)
    cases v with
    | table entries =>
      have hentries := sectionsOf_eq_of_spelled (path ++ [key]) (h entries List.mem_cons_self)
      rw [itemSections, itemBlocks, List.map_append, List.map_append, List.map_cons, List.map_cons, hentries, hrest,
        Section.whole, plainText_eq, linesText_cons]
      rfl
    | _ => exact hrest

theorem sizeOf_entry_lt {entries : Table} {entry : String × Value} (h : entry ∈ entries) :
    sizeOf entry.2 < sizeOf (Value.table entries) := by
  have hlt := List.sizeOf_lt_of_mem h
  obtain ⟨key, v⟩ := entry
  rw [Prod.mk.sizeOf_spec] at hlt
  rw [Value.table.sizeOf_spec]
  simp only
  omega

theorem sizeOf_item_lt {items : List Value} {v : Value} (h : v ∈ items) : sizeOf v < sizeOf (Value.array items) := by
  rw [Value.array.sizeOf_spec]
  exact Nat.lt_add_left 1 (List.sizeOf_lt_of_mem h)

theorem spelled (v : Value) : Spelled v := by
  intro path key
  match v with
  | .table entries =>
    have hentries := sectionsOf_eq_of_spelled (path ++ [key]) fun entry (hentry : entry ∈ entries) => spelled entry.2
    rw [sections, blocks, List.map_cons, List.map_cons, hentries, Section.whole, plainText_eq, linesText_cons]
    rfl
  | .array items =>
    rw [sections, blocks]
    split
    · exact itemSections_eq_of_spelled path key fun entries (hitem : .table entries ∈ items) entry
        (hentry : entry ∈ entries) => spelled entry.2
    · rfl
  | .string _ | .integer _ | .float _ | .boolean _ | .date _ => rfl
termination_by sizeOf v
decreasing_by
  · exact sizeOf_entry_lt hentry
  · exact Nat.lt_trans (sizeOf_entry_lt hentry) (sizeOf_item_lt hitem)

theorem sectionsOf_eq (path : List String) (table : Table) :
    (sectionsOf path table).map Section.whole = (blocksOf path table).map linesText :=
  sectionsOf_eq_of_spelled path fun entry _ => spelled entry.2

def documentBlocks (table : Table) : List (List Statement) :=
  if pairs table = [] then blocksOf [] table else pairs table :: blocksOf [] table

theorem flatten_documentBlocks (table : Table) :
    (documentBlocks table).flatten = pairs table ++ (blocksOf [] table).flatten := by
  rw [documentBlocks]
  split
  case isTrue h => rw [h, List.nil_append]
  case isFalse => rw [List.flatten_cons]

theorem linesText_eq_empty : linesText sts = "" ↔ sts = [] := by
  refine ⟨fun h => ?_, fun h => by rw [h]; rfl⟩
  cases sts with
  | nil => rfl
  | cons st sts =>
    rw [linesText_cons] at h
    have htext : st.text.toList ++ (linesText sts).toList = [] := by rw [← String.toList_append, h]; rfl
    exact absurd (List.append_eq_nil_iff.1 htext).1 st.text_ne_nil

theorem render_eq (table : Table) : render table = "\n".intercalate ((documentBlocks table).map linesText) := by
  have hsections : (sectionsOf [] table).map (fun s => s.header ++ s.body) = (blocksOf [] table).map linesText :=
    sectionsOf_eq [] table
  rw [render, documentBlocks]
  simp only [plainText_eq, linesText_eq_empty, hsections]
  split <;> rfl

variable {path : List String} {key : String} {v : Value} {depth : Nat} {items : List Table}

theorem Plain.isTable_eq_false (h : Plain depth v) : v.isTable = false := by cases h <;> rfl

theorem Plain.isTables_eq_false (h : Plain depth v) : v.isTables = false := by
  cases h with
  | @array _ items hitems =>
    cases items with
    | nil => rfl
    | cons v items => simp [Value.isTables, (hitems v List.mem_cons_self).isTable_eq_false]
  | _ => rfl

theorem isTables_map_table (h : items ≠ []) : (Value.array (items.map .table)).isTables = true := by
  simp [Value.isTables, Value.isTable, h]

def Value.inSection (v : Value) : Bool := v.isTable || v.isTables

theorem Plain.inSection_eq_false (h : Plain depth v) : v.inSection = false := by
  rw [Value.inSection, h.isTable_eq_false, h.isTables_eq_false]
  rfl

theorem blocks_of_plain (h : v.inSection = false) : blocks path key v = [] := by
  rw [Value.inSection, Bool.or_eq_false_iff] at h
  obtain ⟨htable, htables⟩ := h
  cases v with
  | table entries => cases htable
  | array items => rw [blocks, htables, if_neg Bool.false_ne_true]
  | _ => rfl

theorem blocksOf_eq_flatMap (table : Table) :
    blocksOf path table = table.flatMap fun entry => blocks path entry.1 entry.2 := by
  induction table with
  | nil => rfl
  | cons entry table ih => rw [blocksOf, ih, List.flatMap_cons]

def itemBlock (path : List String) (key : String) (entries : Table) : List (List Statement) :=
  (.arrayHeader path key :: pairs entries) :: blocksOf (path ++ [key]) entries

theorem itemBlocks_map_table (items : List Table) :
    itemBlocks path key (items.map .table) = items.flatMap (itemBlock path key) := by
  induction items with
  | nil => rfl
  | cons entries items ih => rw [List.map_cons, itemBlocks, ih, List.flatMap_cons, itemBlock]

theorem Writable.pairs (h : Writable depth table) (hdepth : depth ≤ depthLimit) :
    ∀ st ∈ pairs table, st.Writable := by
  intro st hst
  obtain ⟨⟨key, v⟩, hmem, hst⟩ := List.mem_filterMap.1 hst
  cases depth with
  | zero => exact absurd h id
  | succ depth =>
    simp only at hst
    split at hst
    case isTrue => cases hst
    case isFalse hplain =>
      cases hst
      refine ⟨rfl, ?_⟩
      have hv := h.2 _ hmem
      cases hv with
      | plain hv => exact hv.mono (Nat.le_pred_of_lt hdepth)
      | table => exact absurd (.inl rfl) hplain
      | tables hne => exact absurd (.inr (isTables_map_table hne)) hplain

theorem Writable.depth_pos (h : Writable depth table) : 0 < depth := by
  cases depth with
  | zero => exact absurd h id
  | succ depth => exact Nat.succ_pos depth

theorem Writable.blocksOf (h : Writable depth table) (hdepth : path.length + depth ≤ depthLimit) :
    ∀ sts ∈ blocksOf path table, ∀ st ∈ sts, st.Writable := by
  induction depth generalizing path table with
  | zero => exact absurd h id
  | succ depth ih =>
    intro sts hsts
    rw [blocksOf_eq_flatMap] at hsts
    obtain ⟨⟨key, v⟩, hmem, hsts⟩ := List.mem_flatMap.1 hsts
    have hinner {entries : Table} (hentries : Writable depth entries) :
        ∀ sts ∈ Toml.blocksOf (path ++ [key]) entries, ∀ st ∈ sts, st.Writable :=
      ih hentries (by rw [List.length_append, List.length_singleton]; omega)
    have hheader (hpos : 0 < depth) : path.length + 1 < depthLimit := by omega
    have hdepth' : depth ≤ depthLimit := by omega
    have hv := h.2 _ hmem
    simp only at hv hsts
    cases hv with
    | plain hv =>
      rw [blocks_of_plain hv.inSection_eq_false] at hsts
      cases hsts
    | table hentries =>
      have hpos := hentries.depth_pos
      rw [blocks] at hsts
      rcases List.mem_cons.1 hsts with rfl | hsts
      · exact List.forall_mem_cons.2 ⟨hheader hpos, hentries.pairs hdepth'⟩
      · exact hinner hentries sts hsts
    | @tables items hne hitems =>
      rw [blocks, if_pos (isTables_map_table hne), itemBlocks_map_table] at hsts
      obtain ⟨entries, hentries, hsts⟩ := List.mem_flatMap.1 hsts
      have hpos := (hitems entries hentries).depth_pos
      rcases List.mem_cons.1 hsts with rfl | hsts
      · exact List.forall_mem_cons.2 ⟨hheader hpos, (hitems entries hentries).pairs hdepth'⟩
      · exact hinner (hitems entries hentries) sts hsts

/-- The text of a table is read as its statements. -/
theorem parse_render_eq_assemble (h : Writable depth table) (hdepth : depth ≤ depthLimit) :
    parse (render table) = assemble (pairs table ++ (blocksOf [] table).flatten) := by
  rw [← flatten_documentBlocks]
  refine parse_of_reads ?_
  rw [render_eq]
  refine reads_blocks fun sts hsts => ?_
  have hlength : ([] : List String).length + depth ≤ depthLimit := by simpa using hdepth
  have hblocks := h.blocksOf hlength
  rw [documentBlocks] at hsts
  split at hsts
  case isTrue => exact hblocks sts hsts
  case isFalse =>
    rcases List.mem_cons.1 hsts with rfl | hsts
    · exact h.pairs hdepth
    · exact hblocks sts hsts

end SoundGraph.Toml
