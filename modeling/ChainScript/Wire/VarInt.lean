import ChainScript.Wire.Input

/-! Variable-length integers: a value below `0xFD` is its own byte; the tags `0xFD`, `0xFE` and
`0xFF` announce two, four and eight little-endian bytes. Writing takes the shortest form that
holds the value. Reading takes any form. -/
namespace ChainScript.Wire.VarInt

def encode (n : UInt64) : Bytes :=
  if n < 0xFD then [n.toUInt8]
  else if n ≤ 0xFFFF then 0xFD :: leBytes 2 n.toNat
  else if n ≤ 0xFFFFFFFF then 0xFE :: leBytes 4 n.toNat
  else 0xFF :: leBytes 8 n.toNat

def read : Decoder UInt64 := do
  let tag ← Decoder.byte
  if tag = 0xFD then return (← Decoder.u16).toUInt64
  else if tag = 0xFE then return (← Decoder.u32).toUInt64
  else if tag = 0xFF then Decoder.u64
  else return tag.toUInt64

end ChainScript.Wire.VarInt
