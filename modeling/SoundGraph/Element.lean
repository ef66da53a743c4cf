import SoundGraph.OutputRef
import SoundGraph.Sample

/-! Graph elements, the values passed around while a graph is sketched: a constant, an output of a node
that already has its place, a bundle of parallel channels, or a pending node, known by its number in
the sketch. -/

namespace SoundGraph

inductive Element where
  | const (value : Sample)
  | out (source : OutputRef)
  | bundle (channels : List Element)
  | pending (id : Nat)

/-- How a pending number is written in messages. -/
def pendingText (id : Nat) : String := s!"PendingId({id})"

namespace Element

def width : Element → Nat
  | bundle channels => channels.length
  | _ => 1

def pending? : Element → Option Nat
  | pending id => some id
  | _ => none

mutual
/-- The pending numbers mentioned, depth-first through nested bundles. -/
def pendings : Element → List Nat
  | const _ | out _ => []
  | pending id => [id]
  | bundle channels => pendingsOf channels

def pendingsOf : List Element → List Nat
  | [] => []
  | e :: es => e.pendings ++ pendingsOf es
end

theorem pendingsOf_eq (es : List Element) : pendingsOf es = es.flatMap pendings := by
  induction es with
  | nil => rfl
  | cons e es ih => simp [pendingsOf, ih]

mutual
/-- Equality that compares constants as numbers. -/
def numEq : Element → Element → Bool
  | const a, const b => a.numEq b
  | out a, out b => a = b
  | pending a, pending b => a = b
  | bundle as, bundle bs => numEqAll as bs
  | _, _ => false

def numEqAll : List Element → List Element → Bool
  | [], [] => true
  | a :: as, b :: bs => a.numEq b && numEqAll as bs
  | _, _ => false
end

/-- Induction through the channels of a bundle. -/
theorem induction {P : Element → Prop} (const : ∀ v, P (.const v)) (out : ∀ r, P (.out r))
    (pending : ∀ id, P (.pending id)) (bundle : ∀ es, (∀ e ∈ es, P e) → P (.bundle es)) : ∀ e, P e
  | .const v => const v
  | .out r => out r
  | .pending id => pending id
  | .bundle es => bundle es fun e _ => induction const out pending bundle e

end Element

end SoundGraph
