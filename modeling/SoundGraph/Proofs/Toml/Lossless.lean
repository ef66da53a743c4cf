import Mathlib.Data.List.Forall2
import Mathlib.Data.Option.Basic
import SoundGraph.Toml.Codec

/-! What is asked of a codec. It prints each table it is made for, and what it reads from the text is the
same table, the order of the entries apart. An integer that the format does not hold keeps it from
printing at all. -/

namespace SoundGraph.Toml

/-- Values without tables, with at most `depth` arrays around each other. -/
inductive Plain : Nat → Value → Prop
  | string {depth : Nat} (s : String) : Plain depth (.string s)
  | integer {depth : Nat} {n : Int} : fits n = true → Plain depth (.integer n)
  | boolean {depth : Nat} (b : Bool) : Plain depth (.boolean b)
  | array {depth : Nat} {items : List Value} : (∀ v ∈ items, Plain depth v) → Plain (depth + 1) (.array items)

/-- Values that a table can hold if its subtables satisfy `inner`. -/
inductive Holds (depth : Nat) (inner : Table → Prop) : Value → Prop
  | plain {v : Value} : Plain depth v → Holds depth inner v
  | table {entries : Table} : inner entries → Holds depth inner (.table entries)
  | tables {items : List Table} : items ≠ [] → (∀ entries ∈ items, inner entries) →
      Holds depth inner (.array (items.map .table))

/-- Tables in which no key stands twice, with at most `depth` tables and arrays around each other. -/
def Writable : Nat → Table → Prop
  | 0, _ => False
  | depth + 1, table => (table.map Prod.fst).Nodup ∧ ∀ entry ∈ table, Holds depth (Writable depth) entry.2

/-- Equal values, the order of the entries of tables apart. -/
inductive Value.Same : Value → Value → Prop
  | string (s : String) : Same (.string s) (.string s)
  | integer (n : Int) : Same (.integer n) (.integer n)
  | float (text : String) : Same (.float text) (.float text)
  | boolean (b : Bool) : Same (.boolean b) (.boolean b)
  | date (text : String) : Same (.date text) (.date text)
  | array {items items' : List Value} : List.Forall₂ Same items items' → Same (.array items) (.array items')
  | table {entries entries' : Table} :
      (∀ key, Option.Rel Same (entries.lookup key) (entries'.lookup key)) → Same (.table entries) (.table entries')

def SameEntries (table table' : Table) : Prop :=
  ∀ key, Option.Rel Value.Same (table.lookup key) (table'.lookup key)

structure Codec.Lossless (codec : Codec) (depth : Nat) : Prop where
  reads_back {table : Table} : Writable depth table →
    ∃ text table', codec.print table = some text ∧ codec.parse text = some table' ∧ SameEntries table table'
  refuses {table : Table} {n : Int} : n ∈ integersOf table → fits n = false → codec.print table = none

variable {depth limit : Nat} {v : Value} {table : Table} {inner : Table → Prop}

theorem Plain.mono (h : Plain depth v) (hdepth : depth ≤ limit) : Plain limit v := by
  induction h generalizing limit with
  | string s => exact .string s
  | integer hfits => exact .integer hfits
  | boolean b => exact .boolean b
  | array _ ih =>
    obtain ⟨limit, rfl⟩ := Nat.exists_eq_add_of_le' (Nat.lt_of_lt_of_le (Nat.succ_pos _) hdepth)
    exact .array fun v hv => ih v hv (Nat.le_of_succ_le_succ hdepth)

theorem Plain.same (h : Plain depth v) : v.Same v := by
  induction h with
  | string s => exact .string s
  | integer => exact .integer _
  | boolean b => exact .boolean b
  | array _ ih => exact .array (List.forall₂_same.2 ih)

theorem mem_integersOfItems {items : List Value} {n : Int} :
    n ∈ integersOfItems items ↔ ∃ v ∈ items, n ∈ v.integers := by
  induction items with
  | nil => simp [integersOfItems]
  | cons v items ih => simp [integersOfItems, ih]

theorem mem_integersOf {n : Int} : n ∈ integersOf table ↔ ∃ entry ∈ table, n ∈ entry.2.integers := by
  induction table with
  | nil => simp [integersOf]
  | cons entry table ih => simp [integersOf, ih]

theorem Plain.fits_of_mem (h : Plain depth v) : ∀ n ∈ v.integers, fits n = true := by
  induction h with
  | integer hfits => simpa [Value.integers] using hfits
  | array _ ih =>
    intro n hn
    rw [Value.integers, mem_integersOfItems] at hn
    obtain ⟨v, hv, hn⟩ := hn
    exact ih v hv n hn
  | string | boolean => simp [Value.integers]

/-- Every integer of a table that can be written fits. -/
theorem Writable.fits_of_mem (h : Writable depth table) : ∀ n ∈ integersOf table, fits n = true := by
  induction depth generalizing table with
  | zero => exact absurd h id
  | succ depth ih =>
    intro n hn
    rw [mem_integersOf] at hn
    obtain ⟨⟨key, v⟩, hentry, hn⟩ := hn
    have hv := h.2 _ hentry
    simp only at hv hn
    cases hv with
    | plain hplain => exact hplain.fits_of_mem n hn
    | table hentries => exact ih hentries n hn
    | @tables items _ hitems =>
      rw [Value.integers, mem_integersOfItems] at hn
      obtain ⟨w, hw, hn⟩ := hn
      obtain ⟨entries, hentries, rfl⟩ := List.mem_map.1 hw
      exact ih (hitems entries hentries) n hn

end SoundGraph.Toml
