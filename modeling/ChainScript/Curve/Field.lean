/-! Arithmetic modulo the prime 2^255 - 19. -/
namespace ChainScript.Curve

def fieldSize : Nat := Nat.pow 2 255 - 19

instance : @NeZero Nat Zero.ofOfNat0 fieldSize := ⟨by decide⟩

abbrev Field := Fin fieldSize

namespace Field

def powFrom (x : Field) : (bits exponent : Nat) → Field
  | 0, _ => 1
  | bits + 1, exponent =>
    let half := powFrom x bits (exponent / 2)
    if exponent % 2 = 1 then half * half * x else half * half

def pow (x : Field) (exponent : Nat) : Field := powFrom x (exponent.log2 + 1) exponent

def inverse (x : Field) : Field := pow x (fieldSize - 2)

def sqrtMinusOne : Field := pow 2 ((fieldSize - 1) / 4)

def sqrtRatio? (u v : Field) : Option Field :=
  let cube := v * v * v
  let root := u * cube * pow (u * (cube * cube * v)) ((fieldSize - 5) / 8)
  let check := v * root * root
  if check = u then some root
  else if check = -u then some (root * sqrtMinusOne)
  else none

end Field
end ChainScript.Curve
