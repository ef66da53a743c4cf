import SoundGraph.Toml.Value

/-! Assembling a document from its statements. A table may be opened by one header only; tables that a
longer header or a dotted key implies come into being on the way. A table made by dotted keys cannot be
opened by a header later, and dotted keys cannot reach into a table that a header opened. -/

namespace SoundGraph.Toml

/-- How a table came into being. -/
inductive Origin where
  | header
  /-- Implied by a longer header. -/
  | implied
  | dotted
  deriving DecidableEq

/-- A document under assembly. -/
inductive Tree where
  | value (v : Value)
  | table (origin : Origin) (entries : List (String × Tree))
  /-- An array of tables, the latest first. -/
  | tables (items : List (List (String × Tree)))

abbrev Entries := List (String × Tree)

/-- Replaces the entry of a key, or appends one. -/
def setEntry (key : String) (t : Tree) : Entries → Entries
  | [] => [(key, t)]
  | (k, u) :: rest => if k = key then (k, t) :: rest else (k, u) :: setEntry key t rest

/-- Changes the table at the end of a path, making the tables on the way that are missing. A path leads
into the latest table of an array. With `viaDots`, tables opened by a header are closed to it. -/
def alter (viaDots : Bool) (change : Origin → Entries → Option Entries) :
    List String → Origin → Entries → Option Entries
  | [], origin, entries => change origin entries
  | key :: path, _, entries => do
    let child ← match entries.lookup key with
      | none =>
        let origin : Origin := if viaDots then .dotted else .implied
        pure (.table origin (← alter viaDots change path origin []))
      | some (.table origin inner) =>
        if viaDots ∧ origin = .header then none
        else pure (.table origin (← alter viaDots change path origin inner))
      | some (.tables (latest :: older)) =>
        pure (.tables ((← alter viaDots change path .header latest) :: older))
      | some (.tables []) | some (.value _) => none
    return setEntry key child entries

/-- Adds a key that is new; dotted keys end in tables made by dotted keys. -/
def addKey (dotted : Bool) (key : String) (v : Value) (origin : Origin) (entries : Entries) :
    Option Entries :=
  if dotted ∧ origin ≠ .dotted then none
  else match entries.lookup key with
    | some _ => none
    | none => some (setEntry key (.value v) entries)

/-- Adds `path.key = v` to a table. -/
def addPair (path : List String) (key : String) (v : Value) (origin : Origin) (entries : Entries) :
    Option Entries :=
  alter true (addKey (!path.isEmpty) key v) path origin entries

def openTable (key : String) (_ : Origin) (entries : Entries) : Option Entries :=
  match entries.lookup key with
  | none => some (setEntry key (.table .header []) entries)
  | some (.table .implied inner) => some (setEntry key (.table .header inner) entries)
  | some _ => none

def openArrayTable (key : String) (_ : Origin) (entries : Entries) : Option Entries :=
  match entries.lookup key with
  | none => some (setEntry key (.tables [[]]) entries)
  | some (.tables items) => some (setEntry key (.tables ([] :: items)) entries)
  | some _ => none

inductive Statement where
  | header (path : List String) (key : String)
  | arrayHeader (path : List String) (key : String)
  | pair (path : List String) (key : String) (value : Value)

/-- A document and the path of the table that is open. -/
structure Assembly where
  root : Entries
  current : List String

def Assembly.step (a : Assembly) : Statement → Option Assembly
  | .header path key => do
    let root ← alter false (openTable key) path .header a.root
    return ⟨root, path ++ [key]⟩
  | .arrayHeader path key => do
    let root ← alter false (openArrayTable key) path .header a.root
    return ⟨root, path ++ [key]⟩
  | .pair path key v => do
    let root ← alter false (addPair path key v) a.current .header a.root
    return { a with root }

mutual
def Tree.toValue : Tree → Value
  | .value v => v
  | .table _ entries => .table (valuesOf entries)
  | .tables items => .array (tablesOf items).reverse

def valuesOf : Entries → Table
  | [] => []
  | (key, t) :: rest => (key, t.toValue) :: valuesOf rest

def tablesOf : List Entries → List Value
  | [] => []
  | entries :: rest => .table (valuesOf entries) :: tablesOf rest
end

def assemble (statements : List Statement) : Option Table := do
  let a ← statements.foldlM Assembly.step ⟨[], []⟩
  return valuesOf a.root

/-- The table that the pairs of an inline table make. -/
def assembleInline (pairs : List (List String × String × Value)) : Option Table := do
  let entries ← pairs.foldlM (fun entries (path, key, v) => addPair path key v .header entries) []
  return valuesOf entries

end SoundGraph.Toml
