/-! The fewest decimal places that tell a binary fraction from its neighbours, by exact
arithmetic: on the grid of a given number of places only the two points next to the value can
lie in the interval that rounds to it. -/
namespace ChainScript.Decimal

/-- The number `mantissa / 2 ^ halvings` of a binary format, one unit of the mantissa from its
neighbours. Below a power of two the lower neighbour is only half as far. -/
structure Fraction where
  mantissa : Nat
  halvings : Nat
  tight : Bool
  deriving DecidableEq, Repr

namespace Fraction

/-- The point of the grid that stands for the fraction, counted in units of the last place: the
nearer of the two next to it if both round back to the fraction, the upper one on a tie. The ends
of the rounding interval belong to it when the mantissa is even. -/
def onGrid? (x : Fraction) (places : Nat) : Option Nat :=
  let tens := Nat.pow 10 places
  let unit := 4 * Nat.pow 2 x.halvings
  let scaled := 4 * x.mantissa * tens
  let below := scaled % unit
  let above := unit - below
  let reach (gap limit : Nat) : Bool := if x.mantissa % 2 = 0 then gap ≤ limit else gap < limit
  let lowerHit := reach below ((if x.tight then 1 else 2) * tens)
  let upperHit := reach above (2 * tens)
  if upperHit && (!lowerHit || above ≤ below) then some (scaled / unit + 1)
  else if lowerHit then some (scaled / unit)
  else none

/-- Tries grids of more and more places. After `fuel` steps without a hit the places are as many
as the halvings, and the fraction itself lies on the grid. -/
def search (x : Fraction) : (fuel places : Nat) → Nat × Nat
  | 0, places => (x.mantissa * Nat.pow 10 places / Nat.pow 2 x.halvings, places)
  | fuel + 1, places =>
    match x.onGrid? places with
    | some n => (n, places)
    | none => x.search fuel (places + 1)

/-- The decimal `n / 10 ^ places` with the fewest places, at least one, that rounds to the fraction. -/
def shortest (x : Fraction) : Nat × Nat := x.search (x.halvings - 1) 1

end Fraction
end ChainScript.Decimal
