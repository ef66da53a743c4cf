import SoundGraph.Toml.Parser
import SoundGraph.Toml.Printer

/-! Codecs, the two directions between tables and text. Settings are read and written through any codec; the
one used where none is named prints a table with its sections under headers. -/

namespace SoundGraph.Toml

structure Codec where
  print : Table → Option String
  parse : String → Option Table

/-- Prints every table whose integers the format holds. -/
def pretty : Codec where
  print table := if (integersOf table).all fits then some (render table) else none
  parse := parse

end SoundGraph.Toml
