import ChainScript.Text.SingleByte
import ChainScript.Wire.VarInt

/-! Typed pieces of wire data: how each is written, and the request that reads it back. -/
namespace ChainScript.Wire

def counted (bytes : Bytes) : Bytes := VarInt.encode bytes.length.toUInt64 ++ bytes

def countedText (s : String) : Except Char Bytes := counted <$> Text.SingleByte.encode s

def countedNat (n : Nat) : Bytes := counted (leDigits n)

namespace Decoder

def counted : Decoder Bytes := do take (← VarInt.read).toNat
def text : Decoder String := do return Text.SingleByte.decode (← counted)
def natural : Decoder Nat := do return leValue (← counted)

end Decoder

inductive Item where
  | u8 (n : UInt8)
  | u16 (n : UInt16)
  | u32 (n : UInt32)
  | u64 (n : UInt64)
  | varInt (n : UInt64)
  | raw (data : Bytes)
  | bytes (data : Bytes)
  | text (s : String)
  | natural (n : Nat)
  deriving DecidableEq, Repr

def Item.encode : Item → Except Char Bytes
  | .u8 n => .ok [n]
  | .u16 n => .ok (leBytes 2 n.toNat)
  | .u32 n => .ok (leBytes 4 n.toNat)
  | .u64 n => .ok (leBytes 8 n.toNat)
  | .varInt n => .ok (VarInt.encode n)
  | .raw data => .ok data
  | .bytes data => .ok (counted data)
  | .text s => countedText s
  | .natural n => .ok (countedNat n)

abbrev Encoder := EStateM Char Bytes

/-- Puts an item behind what is written. A text without bytes is refused and changes nothing. -/
def Item.write (item : Item) : Encoder Unit := fun written =>
  match item.encode with
  | .ok more => .ok () (written ++ more)
  | .error c => .error c written

inductive Request where
  | peek
  | u8
  | u16
  | u32
  | u64
  | varInt
  | raw (length : Nat)
  | bytes
  | text
  | natural
  deriving DecidableEq, Repr

def Request.read : Request → Decoder Item
  | .peek => .u8 <$> Decoder.peek
  | .u8 => .u8 <$> Decoder.byte
  | .u16 => .u16 <$> Decoder.u16
  | .u32 => .u32 <$> Decoder.u32
  | .u64 => .u64 <$> Decoder.u64
  | .varInt => .varInt <$> VarInt.read
  | .raw length => .raw <$> Decoder.take length
  | .bytes => .bytes <$> Decoder.counted
  | .text => .text <$> Decoder.text
  | .natural => .natural <$> Decoder.natural

def Item.request : Item → Request
  | .u8 _ => .u8
  | .u16 _ => .u16
  | .u32 _ => .u32
  | .u64 _ => .u64
  | .varInt _ => .varInt
  | .raw data => .raw data.length
  | .bytes _ => .bytes
  | .text _ => .text
  | .natural _ => .natural

end ChainScript.Wire
