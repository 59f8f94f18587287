import ChainScript.Curve.Field
import ChainScript.Wire.LittleEndian

/-! The twisted Edwards curve -x² + y² = 1 + d·x²·y² with d = -121665/121666. Its addition law
has no exceptions, so the same formula adds, doubles and takes the neutral point. -/
namespace ChainScript.Curve

def curveD : Field := -121665 * Field.inverse 121666

def groupOrder : Nat := Nat.pow 2 252 + 27742317777372353535851937790883648493

/-- The point (x/z, y/z), with t = x·y/z. -/
structure Point where
  x : Field
  y : Field
  z : Field
  t : Field
  deriving DecidableEq, Repr

namespace Point

def zero : Point := ⟨0, 1, 1, 0⟩

def ofAffine (x y : Field) : Point := ⟨x, y, 1, x * y⟩

def add (p q : Point) : Point :=
  let a := (p.y - p.x) * (q.y - q.x)
  let b := (p.y + p.x) * (q.y + q.x)
  let c := 2 * curveD * p.t * q.t
  let d := 2 * p.z * q.z
  let e := b - a
  let f := d - c
  let g := d + c
  let h := b + a
  ⟨e * f, g * h, f * g, e * h⟩

def neg (p : Point) : Point := ⟨-p.x, p.y, p.z, -p.t⟩

def scaleFrom (p : Point) : (bits factor : Nat) → Point
  | 0, _ => zero
  | bits + 1, factor =>
    let half := scaleFrom p bits (factor / 2)
    let even := half.add half
    if factor % 2 = 1 then even.add p else even

def scale (factor : Nat) (p : Point) : Point := scaleFrom p (factor.log2 + 1) factor

def signBit : Nat := Nat.pow 2 255

/-- The y coordinate in 255 bits, and above it the lowest bit of x. -/
def compress (p : Point) : Bytes :=
  let inverse := Field.inverse p.z
  let x := p.x * inverse
  let y := p.y * inverse
  Wire.leBytes 32 (y.val + x.val % 2 * signBit)

theorem length_compress (p : Point) : p.compress.length = 32 := by simp [compress]

/-- A y coordinate of 255 bits stands for its residue. The bit above it says which of the two
x coordinates is meant, and nothing where x is zero. -/
def decompress? (bytes : Bytes) : Option Point :=
  let n := Wire.leValue bytes
  let y := Fin.ofNat fieldSize (n % signBit)
  let odd := n / signBit % 2
  (Field.sqrtRatio? (y * y - 1) (curveD * y * y + 1)).map fun x =>
    ofAffine (if x.val % 2 = odd then x else -x) y

/-- The point with y = 4/5 and even x. -/
def base : Point :=
  ofAffine 15112221349535400772501151409588531511454012693041857206046113283949847762202
    46316835694926478169428394003475163141307993866256225615783033603165251855960

end Point
end ChainScript.Curve
