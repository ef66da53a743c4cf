import SoundGraph.Script

/-! Catalogs of unit generators, in the order of registration. Registration accepts a consistent
generator whose name is free, appends it, and otherwise changes nothing. -/

namespace SoundGraph

inductive CatalogError where
  | invalid (error : CompileError)
  | duplicate (name : String)
  deriving DecidableEq

def CatalogError.message : CatalogError → String
  | invalid error => error.message
  | duplicate name => s!"unit generator '{name}' is already registered"

structure Catalog where
  entries : Array Generator := #[]

namespace Catalog

def empty : Catalog := {}

def size (c : Catalog) : Nat := c.entries.size

def names (c : Catalog) : List String := c.entries.toList.map Generator.name

def find? (c : Catalog) (name : String) : Option Generator := c.entries.find? (·.name = name)

def contains (c : Catalog) (name : String) : Bool := (c.find? name).isSome

def insert (c : Catalog) (g : Generator) : Catalog := { entries := c.entries.push g }

/-- Answers with the entry that is made. -/
def register (c : Catalog) (g : Generator) : Except CatalogError (Generator × Catalog) := do
  g.descriptor.validate.mapError .invalid
  if c.contains g.name then throw (.duplicate g.name)
  return (g, c.insert g)

end Catalog

end SoundGraph
