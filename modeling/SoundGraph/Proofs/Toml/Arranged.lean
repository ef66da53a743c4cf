import SoundGraph.Proofs.Toml.Statements

/-! What a table is after it was written and read: the entries that stand on a line each come first, those
in sections behind them, in every table. Each key keeps its value, arranged alike. -/

namespace SoundGraph.Toml

def plainEntries (table : Table) : Table := table.filter fun entry => !entry.2.inSection

mutual
/-- A value after it was written and read: plain entries come first in every table. -/
def Value.arranged : Value → Value
  | .table entries => .table (plainEntries entries ++ sectionEntries entries)
  | .array items => if (Value.array items).isTables then .array (arrangedItems items) else .array items
  | v => v

def arrangedItems : List Value → List Value
  | [] => []
  | v :: rest => v.arranged :: arrangedItems rest

def sectionEntries : List (String × Value) → List (String × Value)
  | [] => []
  | (key, v) :: rest =>
    if v.inSection then (key, v.arranged) :: sectionEntries rest else sectionEntries rest
end

def arranged (table : Table) : Table := plainEntries table ++ sectionEntries table

variable {key : String} {table : Table} {v : Value} {depth : Nat}

theorem plainEntries_cons_of_plain (h : v.inSection = false) :
    plainEntries ((key, v) :: table) = (key, v) :: plainEntries table := List.filter_cons_of_pos (by simp [h])

theorem plainEntries_cons_of_section (h : v.inSection = true) :
    plainEntries ((key, v) :: table) = plainEntries table := List.filter_cons_of_neg (by simp [h])

theorem sectionEntries_cons_of_plain (h : v.inSection = false) :
    sectionEntries ((key, v) :: table) = sectionEntries table := by
  rw [sectionEntries, h, if_neg Bool.false_ne_true]

theorem sectionEntries_cons_of_section (h : v.inSection = true) :
    sectionEntries ((key, v) :: table) = (key, v.arranged) :: sectionEntries table := by
  rw [sectionEntries, h, if_pos rfl]

/-- No entry gets lost. -/
theorem keys_arranged_perm (table : Table) : ((arranged table).map Prod.fst).Perm (table.map Prod.fst) := by
  induction table with
  | nil => rfl
  | cons entry table ih =>
    obtain ⟨key, v⟩ := entry
    rw [arranged, List.map_append] at ih ⊢
    cases hsection : v.inSection with
    | false =>
      rw [plainEntries_cons_of_plain hsection, sectionEntries_cons_of_plain hsection]
      exact ih.cons key
    | true =>
      rw [plainEntries_cons_of_section hsection, sectionEntries_cons_of_section hsection]
      exact List.perm_middle.trans (ih.cons key)

theorem Writable.nodup_arranged (h : Writable depth table) : ((arranged table).map Prod.fst).Nodup := by
  cases depth with
  | zero => exact absurd h id
  | succ depth => exact (keys_arranged_perm table).nodup_iff.2 h.1

theorem lookup_eq_none_of_not_mem {α : Type} {xs : List (String × α)} (h : key ∉ xs.map Prod.fst) :
    xs.lookup key = none := by
  refine List.lookup_eq_none_iff.2 fun x hx => bne_iff_ne.2 fun heq => h ?_
  rw [heq]
  exact List.mem_map_of_mem hx

theorem lookup_eq_none_of_nodup {α : Type} {xs : List (String × α)} {keys : List String}
    (h : (xs.map Prod.fst ++ key :: keys).Nodup) : xs.lookup key = none :=
  lookup_eq_none_of_not_mem fun hmem => (List.nodup_append.1 h).2.2 key hmem key List.mem_cons_self rfl

theorem Value.arranged_of_plain (h : v.inSection = false) : v.arranged = v := by
  rw [Value.inSection, Bool.or_eq_false_iff] at h
  obtain ⟨htable, htables⟩ := h
  cases v with
  | table entries => cases htable
  | array items => rw [Value.arranged, htables, if_neg Bool.false_ne_true]
  | _ => rfl

theorem lookup_arranged (h : (table.map Prod.fst).Nodup) :
    (arranged table).lookup key = (table.lookup key).map Value.arranged := by
  induction table with
  | nil => rfl
  | cons entry table ih =>
    obtain ⟨key', v⟩ := entry
    obtain ⟨hfresh, h⟩ := List.nodup_cons.1 h
    rw [arranged] at ih ⊢
    cases hsection : v.inSection with
    | false =>
      rw [plainEntries_cons_of_plain hsection, sectionEntries_cons_of_plain hsection, List.cons_append,
        List.lookup_cons, List.lookup_cons, ih h]
      split <;> simp [Value.arranged_of_plain hsection]
    | true =>
      rw [List.lookup_append] at ih
      rw [plainEntries_cons_of_section hsection, sectionEntries_cons_of_section hsection, List.lookup_append,
        List.lookup_cons, List.lookup_cons]
      split
      case h_1 heq =>
        -- the key stands nowhere else, so not among the plain entries
        have hnone : (plainEntries table).lookup key = none := by
          refine lookup_eq_none_of_not_mem fun hmem => hfresh ?_
          obtain ⟨entry, hentry, hkey⟩ := List.mem_map.1 hmem
          exact List.mem_map.2 ⟨entry, (List.mem_filter.1 hentry).1, hkey.trans (beq_iff_eq.1 heq)⟩
        rw [hnone]
        rfl
      case h_2 => exact ih h

theorem arrangedItems_eq_map (items : List Value) : arrangedItems items = items.map Value.arranged := by
  induction items with
  | nil => rfl
  | cons v items ih => rw [arrangedItems, ih, List.map_cons]

theorem arranged_tables (items : List Table) :
    (Value.array (items.map .table)).arranged = .array (items.map fun table => .table (arranged table)) := by
  by_cases hne : items = []
  · rw [hne]
    rfl
  · rw [Value.arranged, if_pos (isTables_map_table hne), arrangedItems_eq_map, List.map_map]
    rfl

theorem Holds.same_arranged {inner : Table → Prop}
    (hinner : ∀ {entries}, inner entries → SameEntries entries (arranged entries)) (h : Holds depth inner v) :
    v.Same v.arranged := by
  cases h with
  | plain h =>
    rw [Value.arranged_of_plain h.inSection_eq_false]
    exact h.same
  | table hentries =>
    rw [Value.arranged]
    exact .table (hinner hentries)
  | tables _ hitems =>
    rw [arranged_tables]
    refine .array ?_
    rw [List.forall₂_map_left_iff, List.forall₂_map_right_iff, List.forall₂_same]
    exact fun entries hentries => .table (hinner (hitems entries hentries))

/-- Arranging changes nothing but the order of entries. -/
theorem Writable.same_arranged (h : Writable depth table) : SameEntries table (arranged table) := by
  induction depth generalizing table with
  | zero => exact absurd h id
  | succ depth ih =>
    intro key
    rw [lookup_arranged h.1]
    cases hlookup : table.lookup key with
    | none => exact .none
    | some v =>
      obtain ⟨before, after, htable, -⟩ := List.lookup_eq_some_iff.1 hlookup
      have hmem : (key, v) ∈ table := by rw [htable]; exact List.mem_append_right _ List.mem_cons_self
      exact .some ((h.2 _ hmem).same_arranged ih)

end SoundGraph.Toml
