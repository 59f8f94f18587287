import ChainScript.Decimal.FloatText
import ChainScript.Hex
import ChainScript.Text.SingleByte
import ChainScript.Timestamp

/-! Values that a script can load into a register. A number is kept as its decimal text, which
the machine reads for itself; an array becomes a struct with the keys 0, 1, 2, … -/
namespace ChainScript
open Machine

inductive Value where
  | text (s : String)
  | bool (b : Bool)
  | number (digits : String)
  | time (t : Timestamp)
  | bytes (data : Bytes)
  | enum (n : UInt32)
  | array (items : List Value)
  deriving Repr, BEq

namespace Value

def ofInt (n : Int) : Value := .number (toString n)

def ofFloat (f : Decimal.Format) (bits : Nat) : Value := .number (Decimal.floatText f bits)

def type : Value → TypeTag
  | .text _ | .number _ => .string
  | .bool _ => .bool
  | .time _ => .timestamp
  | .bytes _ => .bytes
  | .enum _ => .enum
  | .array _ => .struct

/-- The value that loaded data stands for. Numbers come back as the text they were loaded as. -/
def ofRaw (ty : TypeTag) (data : Bytes) : Except Refusal Value :=
  match ty, data with
  | .string, data => .ok (.text (Text.SingleByte.decode data))
  | .bytes, data => .ok (.bytes data)
  | .bool, [0] => .ok (.bool false)
  | .bool, [1] => .ok (.bool true)
  | .timestamp, [a, b, c, d] => .ok (.time ⟨(Wire.leValue [a, b, c, d]).toUInt32⟩)
  | .enum, [a, b, c, d] => .ok (.enum (Wire.leValue [a, b, c, d]).toUInt32)
  | ty, _ => .error (.unloadable ty)

mutual

def render : Value → String
  | .text s => Text.quoted s
  | .bool b => if b then "true" else "false"
  | .number digits => digits
  | .time t => "time(" ++ t.text ++ ")"
  | .bytes data => "0x" ++ Hex.lower data
  | .enum n => "enum(" ++ toString n.toNat ++ ")"
  | .array items => "[" ++ ", ".intercalate (renderAll items) ++ "]"

def renderAll : List Value → List String
  | [] => []
  | v :: vs => render v :: renderAll vs

end

end Value
end ChainScript
