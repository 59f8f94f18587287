import ChainScript.Bytes

/-! Text with one byte per character: the byte is the code point, so only U+0000 to U+00FF can
be written, and every byte string is some text. -/
namespace ChainScript.Text.SingleByte

def fits (c : Char) : Bool := c.toNat < 256

def encode (s : String) : Except Char Bytes :=
  match s.toList.find? (fun c => !fits c) with
  | some c => .error c
  | none => .ok (s.toList.map fun c => c.toNat.toUInt8)

def decode (bytes : Bytes) : String := String.ofList (bytes.map fun b => Char.ofNat b.toNat)

end ChainScript.Text.SingleByte
