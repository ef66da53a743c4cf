import SoundGraph.Wire.Decode

/-! The reader that keeps the whole file and a position in it. It takes nothing for granted: a slice outside
the file, a difference below zero and a position past the end are outcomes of their own. -/

namespace SoundGraph.Wire

/-- What must not happen to a reader of positions. -/
inductive Breach where
  | slice (start stop : Nat)
  | underflow (a b : Nat)
  | position (p : Nat)

inductive Stop where
  | corrupt (corruption : Corruption)
  | breach (breach : Breach)

abbrev Seek := ReaderT (List UInt8) (StateT Nat (Except Stop))

namespace Seek

def breach {α : Type} (b : Breach) : Seek α := throw (.breach b)

def minus (a b : Nat) : Seek Nat := if b ≤ a then return a - b else breach (.underflow a b)

def left : Seek Nat := do minus (← read).length (← get)

def slice (start stop : Nat) : Seek (List UInt8) := do
  let file ← read
  if start ≤ stop ∧ stop ≤ file.length then return (file.take stop).drop start
  else breach (.slice start stop)

def moveTo (p : Nat) : Seek Unit := do
  if p ≤ (← read).length then set p else breach (.position p)

end Seek

instance : Reader Seek where
  take n := do
    let start ← get
    if start + n ≤ (← read).length then
      let bytes ← Seek.slice start (start + n)
      Seek.moveTo (start + n)
      return bytes
    else throw (.corrupt ⟨start, .truncated n (← Seek.left)⟩)
  offset := get
  previous := do Seek.minus (← get) 1
  remaining := Seek.left
  failAt offset kind := throw (.corrupt ⟨offset, kind⟩)
  reserve _ _ := return ()

def seekDefinitions (bytes : List UInt8) : Except Stop (List Definition) :=
  ((decodeFile true : Seek (List Definition)).run bytes).run' 0

end SoundGraph.Wire
