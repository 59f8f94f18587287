import ChainScript.Wire.LittleEndian

/-! A slot: two bytes of finished data that receive a 16-bit number later. -/
namespace ChainScript.Wire.Slot

def fill (data : Bytes) (offset : Nat) (value : UInt16) : Option Bytes :=
  if offset + 2 ≤ data.length then
    some (data.take offset ++ leBytes 2 value.toNat ++ data.drop (offset + 2))
  else none

end ChainScript.Wire.Slot
