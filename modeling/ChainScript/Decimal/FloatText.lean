import ChainScript.Decimal.Shortest

/-! The decimal text of a binary floating-point number given by its bits. It never has an
exponent. A whole number is written out exactly and gets `.0`; any other finite number has the
fewest digits that read back to it at its own width. -/
namespace ChainScript.Decimal

/-- A binary interchange format: below the sign stand the exponent field and the fraction field. -/
structure Format where
  exponentBits : Nat
  fractionBits : Nat
  deriving DecidableEq, Repr

def binary32 : Format := ⟨8, 23⟩
def binary64 : Format := ⟨11, 52⟩

/-- The magnitude of a finite number: a whole number, or a fraction in its format. -/
inductive Magnitude where
  | whole (n : Nat)
  | fraction (x : Fraction)
  deriving DecidableEq, Repr

inductive Reading where
  | nan
  | infinite (negative : Bool)
  | finite (negative : Bool) (size : Magnitude)
  deriving DecidableEq, Repr

namespace Format

/-- Field value of the exponent at which the mantissa counts in ones. -/
def onesExponent (f : Format) : Nat := Nat.pow 2 (f.exponentBits - 1) - 1 + f.fractionBits

/-- The number `mantissa · 2 ^ (exponent - onesExponent)`. -/
def magnitude (f : Format) (mantissa exponent : Nat) (tight : Bool) : Magnitude :=
  if f.onesExponent ≤ exponent then .whole (mantissa * Nat.pow 2 (exponent - f.onesExponent))
  else
    let halvings := f.onesExponent - exponent
    if mantissa % Nat.pow 2 halvings = 0 then .whole (mantissa / Nat.pow 2 halvings)
    else .fraction ⟨mantissa, halvings, tight⟩

def read (f : Format) (bits : Nat) : Reading :=
  let one := Nat.pow 2 f.fractionBits
  let exponents := Nat.pow 2 f.exponentBits
  let fraction := bits % one
  let exponent := bits / one % exponents
  let negative := bits / (one * exponents) % 2 = 1
  if exponent = exponents - 1 then
    if fraction = 0 then .infinite negative else .nan
  else if exponent = 0 then .finite negative (f.magnitude fraction 1 false)
  else .finite negative (f.magnitude (one + fraction) exponent (fraction = 0))

end Format

def Magnitude.text : Magnitude → String
  | .whole n => toString n ++ ".0"
  | .fraction x =>
    let (n, places) := x.shortest
    let tens := Nat.pow 10 places
    let digits := (toString (n % tens)).toList
    toString (n / tens) ++ "." ++
      String.ofList (List.replicate (places - digits.length) '0' ++ digits)

def signText (negative : Bool) : String := if negative then "-" else ""

def Reading.text : Reading → String
  | .nan => "NaN"
  | .infinite negative => signText negative ++ "inf"
  | .finite negative size => signText negative ++ size.text

def floatText (f : Format) (bits : Nat) : String := (f.read bits).text

end ChainScript.Decimal
