import ChainScript.Refusal
import ChainScript.Wire.LittleEndian

/-! Unix time in seconds, as the machine keeps it: 32 bits without sign. -/
namespace ChainScript

structure Timestamp where
  secs : UInt32
  deriving DecidableEq, Repr

namespace Timestamp

def last : Nat := 0xFFFFFFFF

/-- A refused time is reported as the 64-bit word that holds it, so a negative one is large. -/
def ofUnix (secs : Int) : Except Refusal Timestamp :=
  if 0 ≤ secs ∧ secs ≤ last then .ok ⟨secs.toNat.toUInt32⟩
  else .error (.outOfRange (secs % 0x10000000000000000).toNat last)

def later (t : Timestamp) (secs : UInt32) : Timestamp :=
  ⟨(min (t.secs.toNat + secs.toNat) last).toUInt32⟩

def encode (t : Timestamp) : Bytes := Wire.leBytes 4 t.secs.toNat

def text (t : Timestamp) : String := toString t.secs.toNat

end Timestamp
end ChainScript
