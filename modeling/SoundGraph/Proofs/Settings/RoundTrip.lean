import Mathlib
import SoundGraph.Proofs.Success
import SoundGraph.Proofs.Toml.Assembly
import SoundGraph.Settings.Format

/-! Settings come back from their text through every codec without loss. The table of settings is one that
such a codec prints as long as their numbers fit, and whatever table with the same entries is read from the
text gives the settings again, their order apart. -/

namespace SoundGraph

open Toml (Value Table)

namespace OutputShape

def input? : OutputShape → Option Nat
  | perChannel input => some input
  | _ => none

/-- A count of outputs takes 32 bits. -/
def CountFits (o : OutputShape) : Prop := ∀ n, o = .fixed n → n < 2 ^ 32

end OutputShape

namespace Entry

/-- The positions that an entry gives. -/
def numbers (e : Entry) : List Nat := e.primary.toList ++ e.outputs.input?.toList

theorem mem_numbers {e : Entry} {n : Nat} : n ∈ e.numbers ↔ n ∈ e.primary ∨ n ∈ e.outputs.input? := by
  rw [numbers, List.mem_append, Option.mem_toList, Option.mem_toList]
  rfl

end Entry

namespace Settings

/-- The numbers that settings may give in any size. -/
def numbers (s : Settings) : List Nat := s.maxNodes :: s.entries.flatMap Entry.numbers

variable {n : Nat} {o : OutputShape} {e : Entry} {s : Settings}

theorem fits_natCast : Toml.fits (n : Int) = true ↔ n < 2 ^ 63 := by
  rw [Toml.fits, decide_eq_true_eq]
  omega

section

variable {depth limit : Nat}

theorem writable_inputTable (i : InputDecl) : Toml.Writable (depth + 1) (inputTable i) := by
  refine ⟨by simp [inputTable], ?_⟩
  simp only [inputTable, List.forall_mem_cons]
  exact ⟨.plain (.string _), .plain (.string _), .plain (.boolean _), by simp⟩

theorem holds_outputs (hcount : o.CountFits) (h : ∀ n ∈ o.input?, n < 2 ^ 63) :
    Toml.Holds limit (Toml.Writable (depth + 1)) (writeOutputs o) := by
  cases o with
  | fixed count => exact .plain (.integer (fits_natCast.2 (Nat.lt_trans (hcount count rfl) (by decide))))
  | perChannel input => exact .table ⟨by simp, by simpa using .plain (.integer (fits_natCast.2 (h input rfl)))⟩
  | zero => exact .plain (.string _)

theorem holds_array (items : List Table) (h : ∀ t ∈ items, Toml.Writable depth t) :
    Toml.Holds (limit + 1) (Toml.Writable depth) (.array (items.map .table)) := by
  by_cases hne : items = []
  · rw [hne]
    exact .plain (.array (by simp))
  · exact .tables hne h

theorem nodup_entryTable (e : Entry) : ((entryTable e).map Prod.fst).Nodup := by
  rw [entryTable]
  cases e.primary <;> split <;> simp

theorem writable_entryTable (hcount : e.outputs.CountFits) (h : ∀ n ∈ e.numbers, n < 2 ^ 63) :
    Toml.Writable (depth + 2) (entryTable e) := by
  refine ⟨nodup_entryTable e, ?_⟩
  have hprimary : ∀ p ∈ e.primary, p < 2 ^ 63 := fun p hp => h p (Entry.mem_numbers.2 (.inl hp))
  have houtputs : ∀ n ∈ e.outputs.input?, n < 2 ^ 63 := fun n hn => h n (Entry.mem_numbers.2 (.inr hn))
  simp only [entryTable, List.forall_mem_append, List.forall_mem_cons]
  refine ⟨⟨⟨⟨.plain (.string _), .plain (.string _), by simp⟩, ?_⟩, ?_⟩, .plain (.boolean _), .plain (.boolean _),
    .plain (.boolean _), holds_outputs hcount houtputs, ?_, by simp⟩
  · intro entry hentry
    obtain ⟨p, hp, rfl⟩ := List.mem_map.1 hentry
    have hfits : Toml.fits p = true := fits_natCast.2 (hprimary p (Option.mem_toList.1 hp))
    exact .plain (.integer hfits)
  · intro entry hentry
    split at hentry
    · cases hentry
    · rw [List.mem_singleton.1 hentry]
      exact .plain (.array (List.forall_mem_map.2 fun r _ => .string _))
  · rw [← Function.comp_def, ← List.map_map]
    exact holds_array _ (List.forall_mem_map.2 fun i _ => writable_inputTable i)

theorem nodup_toTable (s : Settings) : (s.toTable.map Prod.fst).Nodup := by
  rw [toTable]
  split <;> simp

theorem writable_toTable (hcounts : ∀ e ∈ s.entries, e.outputs.CountFits) (h : ∀ n ∈ s.numbers, n < 2 ^ 63) :
    Toml.Writable (depth + 3) s.toTable := by
  obtain ⟨hmax, h⟩ := List.forall_mem_cons.1 h
  refine ⟨s.nodup_toTable, ?_⟩
  have hmaxNodes : Toml.fits s.maxNodes = true := fits_natCast.2 hmax
  simp only [toTable, List.forall_mem_append, List.forall_mem_cons]
  refine ⟨⟨.table ⟨by simp, by simpa using .plain (.integer hmaxNodes)⟩,
    .table ⟨by simp, by simpa using .plain (.boolean _)⟩, by simp⟩, ?_⟩
  intro entry hentry
  split at hentry
  · cases hentry
  · rw [List.mem_singleton.1 hentry, ← Function.comp_def, ← List.map_map]
    refine holds_array _ (List.forall_mem_map.2 fun e he => writable_entryTable (hcounts e he) fun n hn => ?_)
    exact h n (List.mem_flatMap.2 ⟨e, he, hn⟩)

end

/-! Every number of the settings stands in their table. -/

theorem mem_integers_writeOutputs (hn : n ∈ o.input?) : (n : Int) ∈ (writeOutputs o).integers := by
  cases o with
  | perChannel input =>
    cases hn
    exact List.mem_cons_self
  | fixed count => cases hn
  | zero => cases hn

theorem mem_integersOf_entryTable (hn : n ∈ e.numbers) : (n : Int) ∈ Toml.integersOf (entryTable e) := by
  rw [Toml.mem_integersOf]
  rcases Entry.mem_numbers.1 hn with hprimary | houtputs
  · refine ⟨("primary", .integer n), ?_, List.mem_cons_self⟩
    rw [Option.mem_def] at hprimary
    simp [entryTable, hprimary]
  · exact ⟨("outputs", writeOutputs e.outputs), by simp [entryTable], mem_integers_writeOutputs houtputs⟩

theorem mem_integersOf_toTable (hn : n ∈ s.numbers) : (n : Int) ∈ Toml.integersOf s.toTable := by
  rw [Toml.mem_integersOf]
  rcases List.mem_cons.1 hn with rfl | hn
  · exact ⟨("compiler", .table [("max_nodes", .integer s.maxNodes)]), by simp [toTable], List.mem_cons_self⟩
  · obtain ⟨e, he, hn⟩ := List.mem_flatMap.1 hn
    have hne : s.entries ≠ [] := List.ne_nil_of_mem he
    refine ⟨("ugens", .array (s.entries.map fun e => .table (entryTable e))), by simp [toTable, hne], ?_⟩
    rw [Value.integers, Toml.mem_integersOfItems]
    exact ⟨.table (entryTable e), List.mem_map.2 ⟨e, he, rfl⟩, mem_integersOf_entryTable hn⟩

theorem rateWord?_text (r : RateWord) : rateWord? (rateWordText r) = some r := by
  cases r with
  | rate r => cases r <;> decide
  | maybe => rfl

theorem requirement?_text (r : Requirement) : requirement? (requirementText r) = some r := by
  cases r with
  | exactly r => cases r <;> decide
  | any => rfl
  | matchAudio => rfl

/-- What is read of the value is `a`, in whatever order the entries of its tables stand. -/
def Recovers {α : Type} (read : Value → Option α) (v : Value) (a : α) : Prop := ∀ w, v.Same w → read w = some a

theorem recovers_string (text : String) : Recovers readString (.string text) text := by
  rintro _ ⟨⟩
  rfl

theorem recovers_boolean (b : Bool) : Recovers readBool (.boolean b) b := by
  rintro _ ⟨⟩
  rfl

theorem recovers_integer (n : Nat) : Recovers readNat (.integer n) n := by
  rintro _ ⟨⟩
  rfl

section

variable {α : Type} {read : Value → Option α} {v : Value} {a : α}

theorem recovers_word {word? : String → Option α} {text : String} (h : word? text = some a) :
    Recovers (readWord word?) (.string text) a := by
  rintro _ ⟨⟩
  exact h

theorem recovers_list {as : List α} {write : α → Value} (h : ∀ a ∈ as, Recovers read (write a) a) :
    Recovers (readList read) (.array (as.map write)) as := by
  rintro _ (_ | _ | _ | _ | _ | @⟨_, items', hitems⟩ | _)
  rw [readList]
  induction as generalizing items' with
  | nil =>
    cases hitems
    rfl
  | cons a as ih =>
    obtain ⟨ha, h⟩ := List.forall_mem_cons.1 h
    obtain ⟨w, items', hw, hrest, rfl⟩ := List.forall₂_cons_left_iff.1 hitems
    rw [List.mapM_cons, ha w hw, ih h hrest]
    rfl

variable {t u : Table} {key : String} {default : α}

theorem recovers_table (h : ∀ u, Toml.SameEntries t u → read (.table u) = some a) : Recovers read (.table t) a := by
  rintro _ (_ | _ | _ | _ | _ | _ | @⟨_, u, hentries⟩)
  exact h u hentries

theorem get?_of_same (h : Toml.SameEntries t u) (hv : t.lookup key = some v) :
    ∃ w, Toml.get? u key = some w ∧ v.Same w := by
  have hentry := h key
  rw [hv] at hentry
  cases hu : u.lookup key with
  | none =>
    rw [hu] at hentry
    cases hentry
  | some w =>
    rw [hu] at hentry
    obtain ⟨hw⟩ := hentry
    exact ⟨w, hu, hw⟩

theorem required_of_same (h : Toml.SameEntries t u) (hv : t.lookup key = some v) (hread : Recovers read v a) :
    required u key read = some a := by
  obtain ⟨w, hw, hsame⟩ := get?_of_same h hv
  rw [required, hw]
  exact hread w hsame

theorem optional_of_same (h : Toml.SameEntries t u) (hv : t.lookup key = some v) (hread : Recovers read v a) :
    optional u key read default = some a := by
  obtain ⟨w, hw, hsame⟩ := get?_of_same h hv
  rw [optional, hw]
  exact hread w hsame

theorem optional_of_absent (h : Toml.SameEntries t u) (hnone : t.lookup key = none) :
    optional u key read default = some default := by
  have hentry := h key
  rw [hnone] at hentry
  rw [optional, Toml.get?]
  cases hu : u.lookup key with
  | none => rfl
  | some w =>
    rw [hu] at hentry
    cases hentry

end

theorem recovers_outputs (hcount : o.CountFits) : Recovers readOutputs (writeOutputs o) o := by
  cases o with
  | fixed count =>
    have hlt : count < 0x100000000 := hcount count rfl
    rintro _ ⟨⟩
    exact if_pos hlt
  | perChannel input =>
    refine recovers_table fun u hu => ?_
    have hinput : required u "per_channel" readNat = some input := required_of_same hu rfl (recovers_integer input)
    rw [readOutputs, hinput]
    rfl
  | zero =>
    rintro _ ⟨⟩
    rfl

theorem recovers_input (i : InputDecl) : Recovers readInput (.table (inputTable i)) i := by
  refine recovers_table fun u hu => ?_
  have hname : required u "name" readString = some i.name := required_of_same hu rfl (recovers_string i.name)
  have hrate : optional u "rate" (readWord requirement?) .any = some i.requirement :=
    optional_of_same hu rfl (recovers_word (requirement?_text i.requirement))
  have hvariadic : optional u "variadic" readBool false = some i.variadic :=
    optional_of_same hu rfl (recovers_boolean i.variadic)
  rw [readInput, record, Option.bind_eq_bind, Option.bind_some, hname, hrate, hvariadic]
  rfl

theorem recovers_rates (rates : List RateWord) : Recovers (readList (readWord rateWord?)) (writeRates rates) rates :=
  recovers_list fun r _ => recovers_word (rateWord?_text r)

def fixedFields (e : Entry) : Table :=
  [("name", .string e.name), ("rate", .string (rateWordText e.rate)), ("side_effect", .boolean e.sideEffect),
    ("individual", .boolean e.individual), ("done_flag", .boolean e.doneFlag), ("outputs", writeOutputs e.outputs),
    ("inputs", .array (e.inputs.map fun i => .table (inputTable i)))]

theorem lookup_entryTable {key : String} (hprimary : key ≠ "primary") (hrates : key ≠ "rates") :
    (entryTable e).lookup key = (fixedFields e).lookup key := by
  have hprimary' : (key == "primary") = false := beq_false_of_ne hprimary
  have hrates' : (key == "rates") = false := beq_false_of_ne hrates
  rw [entryTable, fixedFields]
  cases e.primary <;> split <;> simp [List.lookup_cons, hprimary', hrates']

section

variable {u : Table} (h : Toml.SameEntries (entryTable e) u)
include h

theorem optional_primary : optional u "primary" (fun v => some <$> readNat v) none = some e.primary := by
  cases hprimary : e.primary with
  | none => exact optional_of_absent h (by rw [entryTable, hprimary]; split <;> rfl)
  | some p =>
    refine optional_of_same (v := .integer p) h (by rw [entryTable, hprimary]; rfl) ?_
    rintro _ ⟨⟩
    rfl

theorem optional_rates : optional u "rates" (readList (readWord rateWord?)) [] = some e.rates := by
  cases hrates : e.rates with
  | nil => exact optional_of_absent h (by rw [entryTable, hrates]; cases e.primary <;> rfl)
  | cons r rates =>
    exact optional_of_same h (by rw [entryTable, hrates]; cases e.primary <;> rfl) (recovers_rates (r :: rates))

end

theorem recovers_entry (hcount : e.outputs.CountFits) : Recovers readEntry (.table (entryTable e)) e := by
  refine recovers_table fun u hu => ?_
  have hlookup {key : String} (hprimary : key ≠ "primary") (hrates : key ≠ "rates") :
      (entryTable e).lookup key = (fixedFields e).lookup key := lookup_entryTable hprimary hrates
  have hname : required u "name" readString = some e.name :=
    required_of_same hu (hlookup (by decide) (by decide)) (recovers_string e.name)
  have hrate : required u "rate" (readWord rateWord?) = some e.rate :=
    required_of_same hu (hlookup (by decide) (by decide)) (recovers_word (rateWord?_text e.rate))
  have hsideEffect : optional u "side_effect" readBool false = some e.sideEffect :=
    optional_of_same hu (hlookup (by decide) (by decide)) (recovers_boolean e.sideEffect)
  have hindividual : optional u "individual" readBool false = some e.individual :=
    optional_of_same hu (hlookup (by decide) (by decide)) (recovers_boolean e.individual)
  have hdoneFlag : optional u "done_flag" readBool false = some e.doneFlag :=
    optional_of_same hu (hlookup (by decide) (by decide)) (recovers_boolean e.doneFlag)
  have houtputs : optional u "outputs" readOutputs (.fixed 1) = some e.outputs :=
    optional_of_same hu (hlookup (by decide) (by decide)) (recovers_outputs hcount)
  have hinputs : optional u "inputs" (readList readInput) [] = some e.inputs :=
    optional_of_same hu (hlookup (by decide) (by decide)) (recovers_list fun i _ => recovers_input i)
  rw [readEntry, record, Option.bind_eq_bind, Option.bind_some, hname, hrate, optional_primary hu, optional_rates hu,
    hsideEffect, hindividual, hdoneFlag, houtputs, hinputs]
  rfl

theorem ofTable_of_same (hcounts : ∀ e ∈ s.entries, e.outputs.CountFits) {u : Table}
    (h : Toml.SameEntries s.toTable u) : ofTable u = some s := by
  have hmax : optional u "compiler" readMaxNodes defaultNodeLimit = some s.maxNodes := by
    refine optional_of_same h rfl (recovers_table fun u hu => ?_)
    exact optional_of_same hu rfl (recovers_integer s.maxNodes)
  have hnames : optional u "codec" readValidateNames true = some s.validateNames := by
    refine optional_of_same h rfl (recovers_table fun u hu => ?_)
    exact optional_of_same hu rfl (recovers_boolean s.validateNames)
  have hentries : optional u "ugens" (readList readEntry) [] = some s.entries := by
    cases hentries : s.entries with
    | nil => exact optional_of_absent h (by rw [toTable, hentries]; rfl)
    | cons e entries =>
      rw [hentries] at hcounts
      have hread : ∀ e' ∈ e :: entries, Recovers readEntry (.table (entryTable e')) e' :=
        fun e' he' => recovers_entry (hcounts e' he')
      exact optional_of_same h (by rw [toTable, hentries]; rfl) (recovers_list hread)
  rw [ofTable, hmax, hnames, hentries]
  rfl

/-- Settings, whose tables are three deep, come back from their text as they were, whatever their names, as far
as they are consistent; the only thing that cannot be written is a number from `2 ^ 63` on. Counts of outputs
have 32 bits. -/
theorem parse_render {codec : Toml.Codec} (hcodec : codec.Lossless 3) (s : Settings)
    (hcounts : ∀ e ∈ s.entries, e.outputs.CountFits) :
    ((∀ n ∈ s.numbers, n < 2 ^ 63) → ∃ text, s.render codec = .ok text ∧
      (s.validate = .ok () → parse text codec = .ok s) ∧
      ∀ error, s.validate = .error error → parse text codec = .error error) ∧
    ((∃ n ∈ s.numbers, 2 ^ 63 ≤ n) → s.render codec = .error .numberTooLarge) := by
  refine ⟨fun h => ?_, ?_⟩
  · obtain ⟨text, table, hprint, hparse, hsame⟩ := hcodec.reads_back (writable_toTable hcounts h)
    have hread : codec.parse text >>= ofTable = some s := by
      rw [hparse, Option.bind_eq_bind, Option.bind_some, ofTable_of_same hcounts hsame]
    refine ⟨text, by rw [render, hprint], ?_⟩
    rw [parse, hread]
    refine ⟨fun hvalid => ?_, fun error herror => ?_⟩
    · simp only [hvalid]
      rfl
    · simp only [herror]
      rfl
  · rintro ⟨n, hn, h⟩
    have hfits : Toml.fits n = false := by
      rw [Bool.eq_false_iff, ne_eq, fits_natCast]
      omega
    rw [render, hcodec.refuses (mem_integersOf_toTable hn) hfits]

/-- Names that need each form of a string, an entry of each output shape, with inputs and without. -/
def intricate : Settings where
  maxNodes := 12
  validateNames := false
  entries :=
    [{ name := "it's \"Blip\"\n", rate := .maybe, primary := some 1, outputs := .perChannel 0
       inputs := [{ name := "", variadic := true }, { name := "fréq\\", requirement := .matchAudio }] },
      { name := "'''\"\"\"", rate := .rate .audio, rates := [.rate .control], outputs := .zero, sideEffect := true },
      { name := "\x00", rate := .rate .demand, outputs := .fixed 0xffffffff }]

def repeated : Settings :=
  { intricate with entries := intricate.entries ++ [{ name := "\x00", rate := .rate .scalar }] }

def excessive : Settings := { entries := [{ name := "Blip", rate := .maybe, primary := some (2 ^ 63) }] }

theorem parse_render_intricate :
    (∃ text, intricate.render = .ok text ∧ parse text = .ok intricate) ∧
      (∃ text, repeated.render = .ok text ∧ parse text = .error (.duplicateEntry "\x00")) ∧
      excessive.render = .error .numberTooLarge := by
  have hpretty : Toml.pretty.Lossless 3 := Toml.lossless_pretty (by decide)
  have hintricate : ∀ e ∈ intricate.entries, e.outputs.CountFits := by
    simp [intricate, OutputShape.CountFits]
  have hrepeated : ∀ e ∈ repeated.entries, e.outputs.CountFits := by
    simp [repeated, intricate, OutputShape.CountFits]
  have hexcessive : ∀ e ∈ excessive.entries, e.outputs.CountFits := by
    simp [excessive, OutputShape.CountFits]
  refine ⟨?_, ?_, ?_⟩
  · obtain ⟨text, htext, hvalid, -⟩ := (parse_render hpretty intricate hintricate).1 (by decide)
    exact ⟨text, htext, hvalid (by decide)⟩
  · obtain ⟨text, htext, -, hinvalid⟩ := (parse_render hpretty repeated hrepeated).1 (by decide)
    exact ⟨text, htext, hinvalid _ (by decide)⟩
  · exact (parse_render hpretty excessive hexcessive).2 ⟨2 ^ 63, by decide, Nat.le_refl _⟩

end Settings

end SoundGraph
