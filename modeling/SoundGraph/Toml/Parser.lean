import SoundGraph.Toml.Document
import SoundGraph.Toml.Lexeme

/-! Reading TOML text. `Toml.parse` gives the table of a document, or nothing if the text is not one. -/

namespace SoundGraph.Toml

open Scan

/-- Dotted keys and nested values stay below this depth. -/
def depthLimit : Nat := 80

def simpleKey : Scan String :=
  quoted <|> literal <|> (do
    let cs ← span isBareKey
    if cs.isEmpty then failure else return String.ofList cs)

def keyRest : Nat → Scan (List String)
  | 0 => failure
  | fuel + 1 => do
    blanks
    let key ← simpleKey
    blanks
    match ← option (char '.') with
    | some () => return key :: (← keyRest fuel)
    | none => return [key]

/-- A dotted key: the path and the last part. -/
def dottedKey : Scan (List String × String) := do
  let keys ← keyRest (← fuel)
  match keys.getLast? with
  | some key => if keys.length < depthLimit then return (keys.dropLast, key) else failure
  | none => failure

def pairOf (value : Scan Value) : Scan (List String × String × Value) := do
  let (path, key) ← dottedKey
  char '='
  blanks
  return (path, key, ← value)

def arrayRest (value : Scan Value) : Nat → Scan (List Value)
  | 0 => failure
  | fuel + 1 => do
    filler fuel
    match ← option (char ']') with
    | some () => return []
    | none => do
      let v ← value
      filler fuel
      match ← option (char ',') with
      | some () => return v :: (← arrayRest value fuel)
      | none => do
        char ']'
        return [v]

def inlineRest (value : Scan Value) : Nat → Scan (List (List String × String × Value))
  | 0 => failure
  | fuel + 1 => do
    let pair ← pairOf value
    blanks
    match ← option (char ',') with
    | some () => return pair :: (← inlineRest value fuel)
    | none => do
      char '}'
      return [pair]

def array (value : Scan Value) : Scan Value := do
  char '['
  return .array (← arrayRest value (← fuel))

def inlineTable (value : Scan Value) : Scan Value := do
  char '{'
  blanks
  let pairs ← (do char '}'; return []) <|> (do inlineRest value (← fuel))
  match assembleInline pairs with
  | some table => return .table table
  | none => failure

/-- A value with at most `depth` arrays or inline tables around each other. -/
def value : (depth : Nat) → Scan Value
  | 0 => scalar
  | depth + 1 => array (value depth) <|> inlineTable (value depth) <|> scalar

def header : Scan Statement :=
  (do
    token ['[', '[']
    let (path, key) ← dottedKey
    token [']', ']']
    return .arrayHeader path key) <|> (do
    char '['
    let (path, key) ← dottedKey
    char ']'
    return .header path key)

def pair : Scan Statement := do
  let (path, key, v) ← pairOf (value (depthLimit - 1))
  return .pair path key v

/-- One line: a header or a pair, or neither. -/
def line : Scan (Option Statement) := do
  blanks
  let statement ← option (header <|> pair)
  lineEnd
  return statement

def lines : Nat → List Statement → Scan (List Statement)
  | 0, _ => failure
  | fuel + 1, read => do
    match ← peek with
    | none => return read.reverse
    | some _ => do
      let statement ← line
      lines fuel (statement.toList ++ read)

/-- The document in `text`, a byte order mark in front of it set aside. -/
def parse (text : String) : Option Table := do
  let cs := match text.toList with
    | '\ufeff' :: cs => cs
    | cs => cs
  let (statements, _) ← (lines (cs.length + 1) []).run cs
  assemble statements

end SoundGraph.Toml
