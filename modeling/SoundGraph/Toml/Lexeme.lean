import SoundGraph.Toml.Value

/-! The lexemes of TOML: blanks, comments, strings, numbers and dates. A scanner takes characters off
the front or fails. Loops carry fuel: every round takes at least one character, so the length of the
text is enough. -/

namespace SoundGraph.Toml

abbrev Scan (α : Type) := StateT (List Char) Option α

namespace Scan

def peek : Scan (Option Char) := return (← get).head?

def next : Scan Char := fun
  | [] => none
  | c :: cs => some (c, cs)

/-- As many rounds as there are characters left, and one. -/
def fuel : Scan Nat := return (← get).length + 1

def satisfy (p : Char → Bool) : Scan Char := do
  let c ← next
  if p c then return c else failure

def char (c : Char) : Scan Unit := discard (satisfy (· == c))

def token : List Char → Scan Unit
  | [] => return
  | c :: cs => do
    char c
    token cs

/-- The longest run of such characters, possibly none. -/
def span (p : Char → Bool) : Scan (List Char) := fun cs => some (cs.takeWhile p, cs.dropWhile p)

def option {α : Type} (s : Scan α) : Scan (Option α) := (some <$> s) <|> pure none

/-- The text that a scanner takes. -/
def text {α : Type} (s : Scan α) : Scan String := fun cs =>
  match s cs with
  | some (_, rest) => some (String.ofList (cs.take (cs.length - rest.length)), rest)
  | none => none

end Scan

open Scan

def isBlank (c : Char) : Bool := c == ' ' || c == '\t'

def isDigit (c : Char) : Bool := '0' ≤ c ∧ c ≤ '9'

def isHexDigit (c : Char) : Bool := isDigit c ∨ ('a' ≤ c ∧ c ≤ 'f') ∨ ('A' ≤ c ∧ c ≤ 'F')

def isBareKey (c : Char) : Bool :=
  isDigit c ∨ ('a' ≤ c ∧ c ≤ 'z') ∨ ('A' ≤ c ∧ c ≤ 'Z') ∨ c = '-' ∨ c = '_'

/-- Control characters, the tab apart. -/
def isControl (c : Char) : Bool := (c.toNat < 0x20 ∧ c ≠ '\t') ∨ c.toNat = 0x7f

def blanks : Scan Unit := discard (span isBlank)

def newline : Scan Unit := char '\n' <|> token ['\r', '\n']

def endOfText : Scan Unit := do
  if (← peek).isSome then failure

def comment : Scan Unit := do
  char '#'
  discard (span fun c => !isControl c)

/-- The rest of a line after a statement. -/
def lineEnd : Scan Unit := do
  blanks
  discard (option comment)
  newline <|> endOfText

/-- Blanks, newlines and comments between the items of an array. -/
def filler : Nat → Scan Unit
  | 0 => failure
  | fuel + 1 => do
    blanks
    match ← peek with
    | some '#' => do
      comment
      newline
      filler fuel
    | some '\n' | some '\r' => do
      newline
      filler fuel
    | _ => return

def hexValue (c : Char) : Nat :=
  if isDigit c then c.toNat - '0'.toNat
  else if 'a' ≤ c then c.toNat - 'a'.toNat + 10
  else c.toNat - 'A'.toNat + 10

def valueIn (base : Nat) (digits : List Char) : Nat :=
  digits.foldl (fun n c => base * n + hexValue c) 0

/-- Exactly `n` characters of a class. -/
def exactly (p : Char → Bool) : Nat → Scan (List Char)
  | 0 => return []
  | n + 1 => do
    let c ← satisfy p
    return c :: (← exactly p n)

/-- A character given by its code, which may be any but a surrogate. -/
def codePoint (digits : Nat) : Scan Char := do
  let n := valueIn 16 (← exactly isHexDigit digits)
  if n.isValidChar then return Char.ofNat n else failure

/-- What follows a backslash in a quoted string. -/
def escape : Scan Char := do
  match ← next with
  | 'b' => return '\x08'
  | 't' => return '\t'
  | 'n' => return '\n'
  | 'f' => return '\x0c'
  | 'r' => return '\r'
  | '"' => return '"'
  | '\\' => return '\\'
  | 'u' => codePoint 4
  | 'U' => codePoint 8
  | _ => failure

/-- The rest of a quoted string on one line. -/
def quotedRest : Nat → Scan (List Char)
  | 0 => failure
  | fuel + 1 => do
    match ← next with
    | '"' => return []
    | '\\' => do
      let c ← escape
      return c :: (← quotedRest fuel)
    | c => if isControl c then failure else return c :: (← quotedRest fuel)

def quoted : Scan String := do
  char '"'
  return String.ofList (← quotedRest (← fuel))

def literal : Scan String := do
  char '\''
  let cs ← span fun c => !isControl c && c != '\''
  char '\''
  return String.ofList cs

/-- The blanks and newlines that an escaped newline swallows. -/
def swallowed : Nat → Scan Unit
  | 0 => failure
  | fuel + 1 => do
    blanks
    match ← option newline with
    | some () => swallowed fuel
    | none => return

def escapedNewline (fuel : Nat) : Scan Unit := do
  char '\\'
  blanks
  newline
  swallowed fuel

/-- The end of a string on several lines; up to two delimiters before it belong to the string. -/
def closing (delimiter : Char) : Scan (List Char) := do
  token (List.replicate 3 delimiter)
  let extra ← option (char delimiter)
  let more ← option (char delimiter)
  return extra.toList.map (fun _ => delimiter) ++ more.toList.map (fun _ => delimiter)

def quotedLinesRest : Nat → Scan (List Char)
  | 0 => failure
  | fuel + 1 =>
    closing '"' <|> (do
      escapedNewline fuel
      quotedLinesRest fuel) <|> (do
      newline
      return '\n' :: (← quotedLinesRest fuel)) <|> (do
      match ← next with
      | '\\' => do
        let c ← escape
        return c :: (← quotedLinesRest fuel)
      | c => if isControl c then failure else return c :: (← quotedLinesRest fuel))

def literalLinesRest : Nat → Scan (List Char)
  | 0 => failure
  | fuel + 1 =>
    closing '\'' <|> (do
      newline
      return '\n' :: (← literalLinesRest fuel)) <|> (do
      let c ← satisfy fun c => !isControl c
      return c :: (← literalLinesRest fuel))

def quotedLines : Scan String := do
  token ['"', '"', '"']
  discard (option newline)
  return String.ofList (← quotedLinesRest (← fuel))

def literalLines : Scan String := do
  token ['\'', '\'', '\'']
  discard (option newline)
  return String.ofList (← literalLinesRest (← fuel))

def anyString : Scan String := quotedLines <|> quoted <|> literalLines <|> literal

/-- Underscores stand between digits only. -/
def wellSeparated : List Char → Bool
  | [] => false
  | ['_'] => false
  | [_] => true
  | '_' :: '_' :: _ => false
  | _ :: cs => wellSeparated cs

/-- A run of digits with underscores between them, the underscores dropped. -/
def digits (p : Char → Bool) : Scan (List Char) := do
  let cs ← span fun c => p c || c == '_'
  if wellSeparated cs ∧ cs.head? ≠ some '_' then return cs.filter (· != '_') else failure

/-- Decimal digits without a leading zero. -/
def wholePart : Scan (List Char) := do
  let ds ← digits isDigit
  if ds.head? = some '0' ∧ ds.length ≠ 1 then failure else return ds

def sign : Scan Bool := (do char '+'; return false) <|> (do char '-'; return true) <|> pure false

def exponent : Scan Int := do
  discard (satisfy fun c => c == 'e' || c == 'E')
  let negative ← sign
  let n := valueIn 10 (← digits isDigit)
  return if negative then -(n : Int) else n

/-- Whether `n · 10 ^ e` rounds to infinity in double precision. -/
def overflows (n : Nat) (e : Int) : Bool :=
  let size := (toString n).length + e
  if n = 0 ∨ size < 300 then false
  else if 320 < size then true
  else (Nat.pow 2 1024 - Nat.pow 2 970) * Nat.pow 10 (-e).toNat ≤ n * Nat.pow 10 e.toNat

/-- A decimal number with a fraction or an exponent; positive ones must be finite. -/
def fractional : Scan Unit := do
  let negative ← sign
  let whole ← wholePart
  let fraction ← option (do char '.'; digits isDigit)
  let power ← option exponent
  if fraction.isNone ∧ power.isNone then failure
  let digits := whole ++ fraction.getD []
  let e := power.getD 0 - (fraction.getD []).length
  if !negative ∧ overflows (valueIn 10 digits) e then failure

def special : Scan Unit := do
  discard sign
  token ['i', 'n', 'f'] <|> token ['n', 'a', 'n']

def checked (n : Int) : Scan Int := if fits n then return n else failure

def inBase (letter : Char) (base : Nat) (p : Char → Bool) : Scan Int := do
  token ['0', letter]
  checked (valueIn base (← digits p))

def decimal : Scan Int := do
  let negative ← sign
  let n := valueIn 10 (← wholePart)
  checked (if negative then -(n : Int) else n)

def integer : Scan Int :=
  inBase 'x' 16 isHexDigit <|> inBase 'o' 8 (fun c => '0' ≤ c ∧ c ≤ '7') <|>
    inBase 'b' 2 (fun c => c == '0' || c == '1') <|> decimal

/-- A number of exactly so many digits. -/
def field (width low high : Nat) : Scan Nat := do
  let n := valueIn 10 (← exactly isDigit width)
  if low ≤ n ∧ n ≤ high then return n else failure

def monthLength (year month : Nat) : Nat :=
  if month = 2 then
    if year % 4 = 0 ∧ (year % 100 ≠ 0 ∨ year % 400 = 0) then 29 else 28
  else if month ∈ [4, 6, 9, 11] then 30
  else 31

def day : Scan Unit := do
  let year ← field 4 0 9999
  char '-'
  let month ← field 2 1 12
  char '-'
  discard (field 2 1 (monthLength year month))

def time : Scan Unit := do
  discard (field 2 0 23)
  char ':'
  discard (field 2 0 59)
  char ':'
  discard (field 2 0 60)
  discard (option do
    char '.'
    let fraction ← span isDigit
    if fraction.isEmpty then failure)

def zone : Scan Unit :=
  discard (satisfy fun c => c == 'Z' || c == 'z') <|> (do
    discard (satisfy fun c => c == '+' || c == '-')
    discard (field 2 0 23)
    char ':'
    discard (field 2 0 59))

def date : Scan Unit :=
  (do
    day
    discard (option do
      discard (satisfy fun c => c == 'T' || c == 't' || c == ' ')
      time
      discard (option zone))) <|> time

def truth : Scan Bool :=
  (do token "true".toList; return true) <|> (do token "false".toList; return false)

/-- A value that holds no other. -/
def scalar : Scan Value :=
  (Value.string <$> anyString) <|> (Value.boolean <$> truth) <|> (Value.date <$> text date) <|>
    (Value.float <$> text (fractional <|> special)) <|> (Value.integer <$> integer)

end SoundGraph.Toml
