/-! Single-precision sample values, kept as their bit patterns, so that NaN payloads and the sign of
zero survive every stage. `Sample.text` writes the fewest digits that read back as the same value. -/

namespace SoundGraph

structure Sample where
  bits : UInt32
  deriving DecidableEq, Hashable

namespace Sample

def zero : Sample := ⟨0⟩

/-- The weight of the sign bit. -/
def signWeight : Nat := 0x80000000

/-- The weight of the lowest exponent bit, which is also the number of fractions. -/
def exponentWeight : Nat := 0x800000

/-- The exponent of the infinities and the NaNs. -/
def topExponent : Nat := 255

def signBit (v : Sample) : Bool := v.bits.toNat / signWeight = 1

def exponentField (v : Sample) : Nat := v.bits.toNat / exponentWeight % 256

def fractionField (v : Sample) : Nat := v.bits.toNat % exponentWeight

def isNaN (v : Sample) : Bool := v.exponentField = topExponent ∧ v.fractionField ≠ 0

def isZero (v : Sample) : Bool := v.exponentField = 0 ∧ v.fractionField = 0

/-- Numeric equality: a NaN differs from everything, the two zeros are equal. -/
def numEq (a b : Sample) : Bool :=
  !a.isNaN && !b.isNaN && (a.bits == b.bits || (a.isZero && b.isZero))

/-- The magnitude is `significand · 2 ^ (scale - 149)`. -/
def significand (v : Sample) : Nat :=
  if v.exponentField = 0 then v.fractionField else exponentWeight + v.fractionField

def scale (v : Sample) : Nat := v.exponentField - 1

/-- The integer nearest in single precision, ties to the even significand. -/
def ofInt (n : Int) : Sample :=
  let m := n.natAbs
  let sign := if n < 0 then signWeight else 0
  let top := m.log2
  let infinity := topExponent * exponentWeight
  let binade := (top + 126) * exponentWeight
  let magnitude :=
    if m = 0 then 0
    else if 128 ≤ top then infinity
    else if top ≤ 23 then binade + m * Nat.pow 2 (23 - top)
    else
      let unit := Nat.pow 2 (top - 23)
      let down := m / unit
      let up := 2 * (m % unit) > unit ∨ (2 * (m % unit) = unit ∧ down % 2 = 1)
      min infinity (binade + down + (if up then 1 else 0))
  ⟨UInt32.ofNat (sign + magnitude)⟩

/-- A decimal `digits · 10 ^ exponent`. -/
structure Decimal where
  digits : Nat
  exponent : Int

/-- The point of the grid `10 ^ exponent` that reads back as `v` and lies nearest to it, a tie going
up. All quantities are multiples of a quarter unit in the last place of `v`; the ends of the interval
that rounds to `v` belong to it when the significand is even. -/
def nearestOnGrid? (v : Sample) (exponent : Int) : Option Decimal :=
  let grow := Nat.pow 2 (v.scale - 149) * Nat.pow 10 (-exponent).toNat
  let unit := 4 * Nat.pow 2 (149 - v.scale) * Nat.pow 10 exponent.toNat
  let gapBelow := if v.fractionField = 0 ∧ 1 < v.exponentField then 1 else 2
  let value := 4 * v.significand * grow
  let low := (4 * v.significand - gapBelow) * grow
  let high := (4 * v.significand + 2) * grow
  let inside (x : Nat) : Bool :=
    if v.significand % 2 = 0 then low ≤ x ∧ x ≤ high else low < x ∧ x < high
  let down := value / unit
  let up := down + 1
  match inside (down * unit), inside (up * unit) with
  | true, true => some ⟨if value - down * unit < up * unit - value then down else up, exponent⟩
  | true, false => some ⟨down, exponent⟩
  | false, true => some ⟨up, exponent⟩
  | false, false => none

/-- Decimal exponents of the grids to try, coarsest first. -/
def gridExponents : List Int := (List.range 92).map fun k : Nat => 38 - (k : Int)

/-- The coarsest decimal that reads back as the magnitude of `v`. -/
def shortest (v : Sample) : Decimal :=
  (gridExponents.findSome? v.nearestOnGrid?).getD ⟨0, 0⟩

/-- Positional notation, never an exponent. -/
def Decimal.text (d : Decimal) : String :=
  let digits := (toString d.digits).toList
  match d.exponent with
  | .ofNat k => String.ofList (digits ++ List.replicate k '0')
  | .negSucc k =>
    let padded := List.replicate (k + 2 - digits.length) '0' ++ digits
    let whole := padded.length - (k + 1)
    String.ofList (padded.take whole ++ '.' :: padded.drop whole)

def text (v : Sample) : String :=
  let magnitude :=
    if v.exponentField = topExponent then "inf"
    else if v.isZero then "0"
    else v.shortest.text
  if v.isNaN then "NaN" else if v.signBit then "-" ++ magnitude else magnitude

end Sample

end SoundGraph
