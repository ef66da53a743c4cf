import SoundGraph.Toml.Lexeme

/-! Writing TOML text. A table writes its plain entries first, each on a line, then each subtable and
each array of tables under a header of its own, a blank line ahead of every header but the first.
Strings take the plainest form that holds them. -/

namespace SoundGraph.Toml

/-- How a string is written. -/
inductive Style where
  | quoted
  | literal
  | quotedLines
  | literalLines
  deriving DecidableEq

/-- The length of the longest run of `c`; `here` is the run that ends at the front. -/
def longestRun (c : Char) (here : Nat) : List Char → Nat
  | [] => here
  | d :: ds => if d = c then longestRun c (here + 1) ds else max here (longestRun c 0 ds)

/-- Control characters that only an escape can hold. -/
def isHidden (c : Char) : Bool := isControl c && c != '\n'

/-- The first style that holds the string without an escape, else a quoted one. -/
def styleOf (cs : List Char) : Style :=
  let lines := cs.contains '\n'
  if cs.any isHidden then if lines then .quotedLines else .quoted
  else if !lines ∧ !cs.contains '\\' ∧ !cs.contains '"' then .quoted
  else if !lines ∧ !cs.contains '\'' then .literal
  else if !cs.contains '\\' ∧ longestRun '"' 0 cs ≤ 2 then .quotedLines
  else if longestRun '\'' 0 cs ≤ 2 then .literalLines
  else if lines then .quotedLines
  else .quoted

/-- Four hexadecimal digits. -/
def unicodeEscape (c : Char) : List Char :=
  let digits := (Nat.toDigits 16 c.toNat).map Char.toUpper
  '\\' :: 'u' :: (List.replicate (4 - digits.length) '0' ++ digits)

/-- A character of a quoted string, quotes and newlines apart. -/
def escapeChar (c : Char) : List Char :=
  match c with
  | '\x08' => ['\\', 'b']
  | '\t' => ['\\', 't']
  | '\x0c' => ['\\', 'f']
  | '\r' => ['\\', 'r']
  | '\\' => ['\\', '\\']
  | c => if isControl c then unicodeEscape c else [c]

def escapeLine (cs : List Char) : List Char :=
  cs.flatMap fun c =>
    if c = '"' then ['\\', '"'] else if c = '\n' then ['\\', 'n'] else escapeChar c

/-- Escapes for a string on several lines: of a run of quotes every third one. `run` counts the quotes
since the last escaped one. -/
def escapeLines (run : Nat) : List Char → List Char
  | [] => []
  | c :: cs =>
    if c = '"' then
      if run = 2 then '\\' :: '"' :: escapeLines 0 cs else '"' :: escapeLines (run + 1) cs
    else if c = '\n' then '\n' :: escapeLines 0 cs
    else escapeChar c ++ escapeLines 0 cs

/-- Text on several lines starts on a line of its own. -/
def leadingNewline (cs : List Char) : List Char := if cs.contains '\n' then ['\n'] else []

def stringText (s : String) : String :=
  let cs := s.toList
  match styleOf cs with
  | .quoted => "\"" ++ String.ofList (escapeLine cs) ++ "\""
  | .literal => "'" ++ s ++ "'"
  | .quotedLines =>
    "\"\"\"" ++ String.ofList (leadingNewline cs ++ escapeLines 0 cs) ++ "\"\"\""
  | .literalLines => "'''" ++ String.ofList (leadingNewline cs) ++ s ++ "'''"

def keyText (key : String) : String :=
  if key ≠ "" ∧ key.toList.all isBareKey then key
  else "\"" ++ String.ofList (escapeLine key.toList) ++ "\""

def truthText (b : Bool) : String := if b then "true" else "false"

mutual
/-- A value on the right of an equals sign; the items of an array stand on lines of their own from the
second item on. -/
def valueText : Value → String
  | .string s => stringText s
  | .integer n => toString n
  | .float text => text
  | .boolean b => truthText b
  | .date text => text
  | .array items =>
    let texts := itemTexts items
    if texts.length < 2 then "[" ++ "".intercalate texts ++ "]"
    else "[\n" ++ String.join (texts.map fun t => "    " ++ t ++ ",\n") ++ "]"
  | .table entries =>
    if entries.isEmpty then "\x7b\x7d"
    else "\x7b " ++ ", ".intercalate (fieldTexts entries) ++ " \x7d"

def itemTexts : List Value → List String
  | [] => []
  | v :: vs => valueText v :: itemTexts vs

def fieldTexts : List (String × Value) → List String
  | [] => []
  | (key, v) :: rest => (keyText key ++ " = " ++ valueText v) :: fieldTexts rest
end

def Value.isTable : Value → Bool
  | .table _ => true
  | _ => false

/-- Arrays that are written under repeated headers. -/
def Value.isTables : Value → Bool
  | .array items => !items.isEmpty && items.all Value.isTable
  | _ => false

/-- The plain entries of a table, a line each. -/
def plainText (table : Table) : String :=
  String.join (table.filterMap fun (key, v) =>
    if v.isTable ∨ v.isTables then none else some (keyText key ++ " = " ++ valueText v ++ "\n"))

/-- The text of a section: a header, if the section has one, and the plain entries under it. -/
structure Section where
  header : String
  body : String

def pathText (path : List String) : String := ".".intercalate (path.map keyText)

mutual
/-- The sections below the entry `path`. -/
def sections (path : List String) : Value → List Section
  | .table entries =>
    ⟨"[" ++ pathText path ++ "]\n", plainText entries⟩ :: sectionsOf path entries
  | .array items => if (Value.array items).isTables then itemSections path items else []
  | _ => []

/-- The sections of the items of an array of tables. -/
def itemSections (path : List String) : List Value → List Section
  | .table entries :: rest =>
    ⟨"[[" ++ pathText path ++ "]]\n", plainText entries⟩ :: sectionsOf path entries ++
      itemSections path rest
  | _ :: rest => itemSections path rest
  | [] => []

def sectionsOf (path : List String) : List (String × Value) → List Section
  | [] => []
  | (key, v) :: rest => sections (path ++ [key]) v ++ sectionsOf path rest
end

/-- A document: its plain entries, then its sections. -/
def render (table : Table) : String :=
  let sections := (sectionsOf [] table).map fun s => s.header ++ s.body
  let top := plainText table
  "\n".intercalate (if top = "" then sections else top :: sections)

end SoundGraph.Toml
