import ChainScript.Assembly.Draft
import ChainScript.Value

/-! Loading values into registers. A plain value takes one instruction. An array is put together
as a struct in its register, with the next register for the items and the one after that for
their keys, so each level of nesting needs one more register. -/
namespace ChainScript.Assembly
open Machine

def loadBytes (r : Reg) (data : Bytes) (ty : TypeTag) : Assembly Unit :=
  if data.length ≤ loadLimit then raw (Opcode.load.byte :: r :: ty.byte :: Wire.counted data)
  else throw (.oversized data.length)

theorem loadBytes_eq_instr (r : Reg) (data : Bytes) (ty : TypeTag) :
    loadBytes r data ty =
      if data.length ≤ loadLimit then instr (.load r ty data)
      else throw (.oversized data.length) := rfl

/-- A text that has a character without a byte is refused before its size is looked at. -/
def loadText (r : Reg) (s : String) : Assembly Unit :=
  match Text.SingleByte.encode s with
  | .ok data => loadBytes r data .string
  | .error c => throw (.unencodable c)

mutual

def load (r : Reg) : Value → Assembly Unit
  | .text s => loadText r s
  | .number digits => loadText r digits
  | .bool b => loadBytes r [if b then 1 else 0] .bool
  | .time t => loadBytes r t.encode .timestamp
  | .bytes data => loadBytes r data .bytes
  | .enum n => loadBytes r (Wire.leBytes 4 n.toNat) .enum
  | .array items => do
    if r.toNat + 2 < registerCount then
      instr (.cast r r .none)
      loadItems r 0 items
    else throw (.outOfRange (r.toNat + 2) (registerCount - 1))

def loadItems (r : Reg) (index : Nat) : List Value → Assembly Unit
  | [] => pure ()
  | v :: vs => do
    load (r + 1) v
    loadText (r + 2) (toString index)
    instr (.put (r + 1) r (r + 2))
    loadItems r (index + 1) vs

end

end ChainScript.Assembly
