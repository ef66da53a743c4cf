import SoundGraph.Proofs.Toml.Arranged

/-! Assembling the statements of a table gives the table again. Each header opens a new place in the
document, and the statements up to the next header fill it without touching what stands around it; so
the document while a table is read is a function of that table's entries. -/

namespace SoundGraph.Toml

variable {acc entries : Entries} {key : String} {t u : Tree} {path : List String} {origin : Origin}
  {build : Entries → Entries}

theorem setEntry_of_lookup_none (h : acc.lookup key = none) : setEntry key t acc = acc ++ [(key, t)] := by
  induction acc with
  | nil => rfl
  | cons entry acc ih =>
    rw [List.lookup_eq_none_iff] at h
    obtain ⟨hentry, h⟩ := List.forall_mem_cons.1 h
    rw [setEntry, if_neg (bne_iff_ne.1 hentry).symm, ih (List.lookup_eq_none_iff.2 h), List.cons_append]

theorem setEntry_append_self (h : acc.lookup key = none) :
    setEntry key u (acc ++ [(key, t)]) = acc ++ [(key, u)] := by
  induction acc with
  | nil => simp [setEntry]
  | cons entry acc ih =>
    rw [List.lookup_eq_none_iff] at h
    obtain ⟨hentry, h⟩ := List.forall_mem_cons.1 h
    rw [List.cons_append, setEntry, if_neg (bne_iff_ne.1 hentry).symm, ih (List.lookup_eq_none_iff.2 h),
      List.cons_append]

theorem lookup_append_self (h : acc.lookup key = none) : (acc ++ [(key, t)]).lookup key = some t := by
  rw [List.lookup_append, h, List.lookup_cons_self]
  rfl

theorem alter_append {viaDots : Bool} {change : Origin → Entries → Option Entries} {path' : List String} :
    alter viaDots change (path ++ path') origin entries =
      alter viaDots (alter viaDots change path') path origin entries := by
  induction path generalizing origin entries with
  | nil => rfl
  | cons key path ih => simp only [List.cons_append, alter, ih]

/-- `build` puts entries into the document as the table at `path`: a change there is a change of those
entries. -/
def Place (path : List String) (origin : Origin) (build : Entries → Entries) : Prop :=
  ∀ change inner, alter false change path .header (build inner) = (change origin inner).map build

theorem place_root : Place [] .header id := by
  intro change inner
  simp [alter]

theorem Place.table (origin' : Origin) (h : Place path origin build) (hkey : acc.lookup key = none) :
    Place (path ++ [key]) origin' fun inner => build (acc ++ [(key, .table origin' inner)]) := by
  intro change inner
  rw [alter_append, h]
  have hlookup := lookup_append_self (t := .table origin' inner) hkey
  cases hchange : change origin' inner with
  | none => simp [alter, hlookup, hchange]
  | some inner' => simp [alter, hlookup, hchange, setEntry_append_self hkey]

theorem Place.tables (older : List Entries) (h : Place path origin build) (hkey : acc.lookup key = none) :
    Place (path ++ [key]) .header fun inner => build (acc ++ [(key, .tables (inner :: older))]) := by
  intro change inner
  rw [alter_append, h]
  have hlookup := lookup_append_self (t := .tables (inner :: older)) hkey
  cases hchange : change .header inner with
  | none => simp [alter, hlookup, hchange]
  | some inner' => simp [alter, hlookup, hchange, setEntry_append_self hkey]

theorem valuesOf_append (es es' : Entries) : valuesOf (es ++ es') = valuesOf es ++ valuesOf es' := by
  induction es with
  | nil => rfl
  | cons e es ih => rw [List.cons_append, valuesOf, ih, valuesOf, List.cons_append]

theorem tablesOf_append (ts ts' : List Entries) : tablesOf (ts ++ ts') = tablesOf ts ++ tablesOf ts' := by
  induction ts with
  | nil => rfl
  | cons e ts ih => rw [List.cons_append, tablesOf, ih, tablesOf, List.cons_append]

theorem keys_valuesOf (es : Entries) : (valuesOf es).map Prod.fst = es.map Prod.fst := by
  induction es with
  | nil => rfl
  | cons e es ih => rw [valuesOf, List.map_cons, List.map_cons, ih]

variable {table : Table} {v : Value} {depth : Nat} {sts sts' : List Statement} {a : Assembly}
  {root : Entries} {current : List String}

def Runs (sts : List Statement) (a : Assembly) (root : Entries) : Prop :=
  ∃ current, sts.foldlM Assembly.step a = some ⟨root, current⟩

theorem runs_nil : Runs [] ⟨root, current⟩ root := ⟨current, rfl⟩

theorem Runs.append {a' : Assembly} (h : Runs sts' a' root) (hsts : sts.foldlM Assembly.step a = some a') :
    Runs (sts ++ sts') a root := by
  obtain ⟨current, h⟩ := h
  refine ⟨current, ?_⟩
  rw [List.foldlM_append, hsts]
  exact h

theorem Runs.cons {st : Statement} {a' : Assembly} (h : Runs sts a' root) (hstep : a.step st = some a') :
    Runs (st :: sts) a root := by
  obtain ⟨current, h⟩ := h
  refine ⟨current, ?_⟩
  rw [List.foldlM_cons, hstep]
  exact h

theorem pairs_cons_of_plain (h : v.inSection = false) :
    pairs ((key, v) :: table) = .pair [] key v :: pairs table := by
  rw [Value.inSection, Bool.or_eq_false_iff] at h
  simp [pairs, h]

theorem pairs_cons_of_section (h : v.inSection = true) : pairs ((key, v) :: table) = pairs table := by
  rw [Value.inSection, Bool.or_eq_true] at h
  simp [pairs, h]

section

variable (hplace : Place path origin build)
include hplace

theorem Place.step_pair (hkey : acc.lookup key = none) :
    Assembly.step ⟨build acc, path⟩ (.pair [] key v) = some ⟨build (acc ++ [(key, .value v)]), path⟩ := by
  have hadd : addPair [] key v origin acc = some (acc ++ [(key, .value v)]) := by
    simp [addPair, alter, addKey, hkey, setEntry_of_lookup_none hkey]
  simp [Assembly.step, hplace _ acc, hadd]

theorem Place.step_header (hkey : acc.lookup key = none) :
    Assembly.step ⟨build acc, current⟩ (.header path key) =
      some ⟨build (acc ++ [(key, .table .header [])]), path ++ [key]⟩ := by
  have hopen : openTable key origin acc = some (acc ++ [(key, .table .header [])]) := by
    simp [openTable, hkey, setEntry_of_lookup_none hkey]
  simp [Assembly.step, hplace _ acc, hopen]

theorem Place.step_arrayHeader {acc' : Entries} (hopen : openArrayTable key origin acc = some acc') :
    Assembly.step ⟨build acc, current⟩ (.arrayHeader path key) = some ⟨build acc', path ++ [key]⟩ := by
  simp [Assembly.step, hplace _ acc, hopen]

/-- The plain entries go behind what the table holds. -/
theorem Place.runs_pairs (hkeys : (acc.map Prod.fst ++ (plainEntries table).map Prod.fst).Nodup) :
    ∃ es, Runs (pairs table) ⟨build acc, path⟩ (build (acc ++ es)) ∧ valuesOf es = plainEntries table := by
  induction table generalizing acc with
  | nil => exact ⟨[], by simpa [pairs] using runs_nil, rfl⟩
  | cons entry table ih =>
    obtain ⟨key, v⟩ := entry
    cases hsection : v.inSection with
    | true =>
      rw [plainEntries_cons_of_section hsection] at hkeys ⊢
      rw [pairs_cons_of_section hsection]
      exact ih hkeys
    | false =>
      rw [plainEntries_cons_of_plain hsection] at hkeys ⊢
      rw [pairs_cons_of_plain hsection]
      have hrest : ((acc ++ [(key, Tree.value v)]).map Prod.fst ++ (plainEntries table).map Prod.fst).Nodup := by
        simpa using hkeys
      obtain ⟨es, hruns, hvalues⟩ := ih hrest
      refine ⟨(key, .value v) :: es, ?_, by rw [valuesOf, hvalues]; rfl⟩
      rw [List.append_assoc] at hruns
      exact hruns.cons (hplace.step_pair (lookup_eq_none_of_nodup hkeys))

end

theorem openArrayTable_of_lookup_none (hkey : acc.lookup key = none) :
    openArrayTable key origin acc = some (acc ++ [(key, .tables [[]])]) := by
  simp [openArrayTable, hkey, setEntry_of_lookup_none hkey]

theorem openArrayTable_append_self (items : List Entries) (hkey : acc.lookup key = none) :
    openArrayTable key origin (acc ++ [(key, .tables items)]) = some (acc ++ [(key, .tables ([] :: items))]) := by
  simp [openArrayTable, lookup_append_self hkey, setEntry_append_self hkey]

/-- The sections of a table, wherever it is, add their entries to it. -/
def SectionsRun (depth : Nat) : Prop :=
  ∀ {table : Table} {path : List String} {origin : Origin} {build : Entries → Entries} {acc : Entries}
    (current : List String), Writable depth table → Place path origin build →
    (acc.map Prod.fst ++ (sectionEntries table).map Prod.fst).Nodup →
    ∃ es, Runs (blocksOf path table).flatten ⟨build acc, current⟩ (build (acc ++ es)) ∧
      valuesOf es = sectionEntries table

/-- A table that its header just opened. -/
theorem runs_body (hsections : SectionsRun depth) (htable : Writable depth table) (hplace : Place path origin build) :
    ∃ es, Runs (pairs table ++ (blocksOf path table).flatten) ⟨build [], path⟩ (build es) ∧
      valuesOf es = arranged table := by
  have hkeys := htable.nodup_arranged
  rw [arranged, List.map_append] at hkeys
  have hkeysPlain : (([] : Entries).map Prod.fst ++ (plainEntries table).map Prod.fst).Nodup :=
    (List.nodup_append.1 hkeys).1
  obtain ⟨es, hpairs, hplain⟩ := hplace.runs_pairs hkeysPlain
  rw [← hplain, keys_valuesOf] at hkeys
  obtain ⟨current, hpairs⟩ := hpairs
  obtain ⟨es', hsections, hvalues⟩ := hsections current htable hplace hkeys
  refine ⟨es ++ es', hsections.append hpairs, ?_⟩
  rw [valuesOf_append, hplain, hvalues, arranged]

theorem runs_item (current : List String) (hsections : SectionsRun depth) (hplace : Place path origin build)
    (hkey : acc.lookup key = none) {before : Entries} {older : List Entries}
    (hopen : openArrayTable key origin before = some (acc ++ [(key, .tables ([] :: older))]))
    (htable : Writable depth table) :
    ∃ inner, Runs (itemBlock path key table).flatten ⟨build before, current⟩
        (build (acc ++ [(key, .tables (inner :: older))])) ∧ valuesOf inner = arranged table := by
  obtain ⟨inner, hbody, hvalues⟩ := runs_body hsections htable (hplace.tables older hkey)
  exact ⟨inner, hbody.cons (hplace.step_arrayHeader hopen), hvalues⟩

/-- The items of an array of tables come one after the other, the latest in front. -/
theorem runs_items (current : List String) (older : List Entries) (hsections : SectionsRun depth)
    (hplace : Place path origin build) (hkey : acc.lookup key = none) {items : List Table}
    (hitems : ∀ entries ∈ items, Writable depth entries) :
    ∃ newer, Runs (items.flatMap (itemBlock path key)).flatten ⟨build (acc ++ [(key, .tables older)]), current⟩
        (build (acc ++ [(key, .tables (newer ++ older))])) ∧
      (tablesOf newer).reverse = arrangedItems (items.map .table) := by
  induction items generalizing older current with
  | nil => exact ⟨[], runs_nil, rfl⟩
  | cons entries items ih =>
    obtain ⟨hentries, hitems⟩ := List.forall_mem_cons.1 hitems
    obtain ⟨inner, ⟨current', hitem⟩, hvalues⟩ :=
      runs_item current hsections hplace hkey (openArrayTable_append_self older hkey) hentries
    obtain ⟨newer, hrest, htables⟩ := ih current' (inner :: older) hitems
    refine ⟨newer ++ [inner], ?_, ?_⟩
    · rw [List.flatMap_cons, List.flatten_append, List.append_assoc]
      exact hrest.append hitem
    · rw [tablesOf_append, List.reverse_append, htables, List.map_cons, arrangedItems, Value.arranged, tablesOf,
        hvalues]
      rfl

/-- A table or an array of tables that is new to the table at `path`. -/
theorem runs_section (current : List String) (hsections : SectionsRun depth) (hplace : Place path origin build)
    (hkey : acc.lookup key = none) (hv : Holds depth (Writable depth) v) (hsection : v.inSection = true) :
    ∃ t, Runs (blocks path key v).flatten ⟨build acc, current⟩ (build (acc ++ [(key, t)])) ∧
      t.toValue = v.arranged := by
  cases hv with
  | plain hv => exact absurd hsection (by simp [hv.inSection_eq_false])
  | table hentries =>
    obtain ⟨es, hbody, hvalues⟩ := runs_body hsections hentries (hplace.table .header hkey)
    refine ⟨.table .header es, hbody.cons (hplace.step_header hkey), ?_⟩
    rw [Tree.toValue, hvalues, Value.arranged, arranged]
  | @tables items hne hitems =>
    obtain ⟨entries, items, rfl⟩ := List.exists_cons_of_ne_nil hne
    obtain ⟨hentries, hitems⟩ := List.forall_mem_cons.1 hitems
    obtain ⟨inner, ⟨current', hitem⟩, hvalues⟩ :=
      runs_item current hsections hplace hkey (openArrayTable_of_lookup_none hkey) hentries
    obtain ⟨newer, hrest, htables⟩ :=
      runs_items current' [inner] hsections hplace hkey hitems
    refine ⟨.tables (newer ++ [inner]), ?_, ?_⟩
    · rw [blocks, if_pos (isTables_map_table hne), itemBlocks_map_table, List.flatMap_cons, List.flatten_append]
      exact hrest.append hitem
    · rw [Tree.toValue, tablesOf_append, List.reverse_append, htables, Value.arranged,
        if_pos (isTables_map_table hne), List.map_cons, arrangedItems, Value.arranged, tablesOf, hvalues]
      rfl

/-- The sections of a table come one after the other. -/
theorem runs_sections (current : List String) (hsections : SectionsRun depth) (hplace : Place path origin build)
    (hholds : ∀ entry ∈ table, Holds depth (Writable depth) entry.2)
    (hkeys : (acc.map Prod.fst ++ (sectionEntries table).map Prod.fst).Nodup) :
    ∃ es, Runs (blocksOf path table).flatten ⟨build acc, current⟩ (build (acc ++ es)) ∧
      valuesOf es = sectionEntries table := by
  induction table generalizing acc current with
  | nil => exact ⟨[], by simpa [blocksOf] using runs_nil, rfl⟩
  | cons entry table ih =>
    obtain ⟨key, v⟩ := entry
    obtain ⟨hv, hholds⟩ := List.forall_mem_cons.1 hholds
    cases hsection : v.inSection with
    | false =>
      rw [sectionEntries_cons_of_plain hsection] at hkeys ⊢
      rw [blocksOf, blocks_of_plain hsection, List.nil_append]
      exact ih current hholds hkeys
    | true =>
      rw [sectionEntries_cons_of_section hsection] at hkeys ⊢
      have hkey := lookup_eq_none_of_nodup hkeys
      obtain ⟨t, ⟨current', hfirst⟩, ht⟩ := runs_section current hsections hplace hkey hv hsection
      have hkeysRest : ((acc ++ [(key, t)]).map Prod.fst ++ (sectionEntries table).map Prod.fst).Nodup := by
        simpa using hkeys
      obtain ⟨es, hrest, hvalues⟩ := ih current' hholds hkeysRest
      refine ⟨(key, t) :: es, ?_, by rw [valuesOf, ht, hvalues]⟩
      rw [blocksOf, List.flatten_append]
      rw [List.append_assoc] at hrest
      exact hrest.append hfirst

theorem sectionsRun (depth : Nat) : SectionsRun depth := by
  induction depth with
  | zero => exact fun _ htable => absurd htable id
  | succ depth ih => exact fun current htable hplace hkeys => runs_sections current ih hplace htable.2 hkeys

/-- A table comes back from its text, plain entries first. -/
theorem parse_render_table (h : Writable depth table) (hdepth : depth ≤ depthLimit) :
    parse (render table) = some (arranged table) := by
  obtain ⟨es, ⟨current, hruns⟩, hvalues⟩ := runs_body (sectionsRun depth) h place_root
  rw [parse_render_eq_assemble h hdepth, assemble]
  simp only [id] at hruns
  rw [hruns, ← hvalues]
  rfl

/-- Up to the depth that the parser takes, nothing gets lost between a table and its text. -/
theorem lossless_pretty (hdepth : depth ≤ depthLimit) : pretty.Lossless depth where
  reads_back {table} h := by
    have hfits : (integersOf table).all fits = true := List.all_eq_true.2 h.fits_of_mem
    exact ⟨render table, arranged table, if_pos hfits, parse_render_table h hdepth, h.same_arranged⟩
  refuses {table n} hn hfits := by
    refine if_neg fun hall => ?_
    rw [List.all_eq_true.1 hall n hn] at hfits
    cases hfits

end SoundGraph.Toml
