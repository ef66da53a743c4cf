/-! Values of the TOML format. Tables keep their entries in the order of the text; floats and dates,
which nothing here computes with, keep their text. -/

namespace SoundGraph.Toml

inductive Value where
  | string (s : String)
  | integer (n : Int)
  | float (text : String)
  | boolean (b : Bool)
  | date (text : String)
  | array (items : List Value)
  | table (entries : List (String × Value))

abbrev Table := List (String × Value)

def get? (table : Table) (key : String) : Option Value := table.lookup key

/-- Integers that the format holds. -/
def fits (n : Int) : Bool := -0x8000000000000000 ≤ n ∧ n < 0x8000000000000000

mutual
/-- The integers in a value, at any depth. -/
def Value.integers : Value → List Int
  | .integer n => [n]
  | .array items => integersOfItems items
  | .table entries => integersOf entries
  | _ => []

def integersOfItems : List Value → List Int
  | [] => []
  | v :: vs => v.integers ++ integersOfItems vs

def integersOf : List (String × Value) → List Int
  | [] => []
  | (_, v) :: rest => v.integers ++ integersOf rest
end

end SoundGraph.Toml
