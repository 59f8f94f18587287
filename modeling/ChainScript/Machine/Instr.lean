import ChainScript.Machine.Opcode
import ChainScript.Machine.TypeTag
import ChainScript.Wire.Item

/-! Instructions and their bytes: the opcode byte, then the operands in the opcode's layout. -/
namespace ChainScript.Machine

abbrev Reg := UInt8

/-- An instruction with its operands. The operations over one, two and three registers share a
constructor each; which opcodes belong to them is said by `Opcode.layout`. -/
inductive Instr where
  | nop
  | ret
  | single (op : Opcode) (r : Reg)
  | pair (op : Opcode) (a b : Reg)
  | triple (op : Opcode) (a b c : Reg)
  | call (count : UInt8) (target : UInt16)
  | jmp (target : UInt16)
  | jmpif (r : Reg) (target : UInt16)
  | jmpnot (r : Reg) (target : UInt16)
  | throw (data : Bytes)
  | load (dst : Reg) (ty : TypeTag) (data : Bytes)
  | cast (src dst : Reg) (ty : TypeTag)
  | left (src dst : Reg) (length : UInt64)
  | right (src dst : Reg) (length : UInt64)
  | substr (src dst : Reg) (index length : UInt64)
  deriving DecidableEq, Repr

namespace Instr

def opcode : Instr → Opcode
  | nop => .nop
  | ret => .ret
  | single op _ | pair op _ _ | triple op _ _ _ => op
  | call .. => .call
  | jmp _ => .jmp
  | jmpif .. => .jmpif
  | jmpnot .. => .jmpnot
  | throw _ => .throw
  | load .. => .load
  | cast .. => .cast
  | left .. => .left
  | right .. => .right
  | substr .. => .substr

def layout : Instr → Opcode.Layout
  | nop | ret => .none
  | single .. => .one
  | pair .. => .two
  | triple .. => .three
  | call .. => .call
  | jmp _ => .jump
  | jmpif .. | jmpnot .. => .branch
  | throw _ => .data
  | load .. => .load
  | cast .. => .cast
  | left .. | right .. => .length
  | substr .. => .range

def Fits (i : Instr) : Prop := i.opcode.layout = i.layout

instance (i : Instr) : Decidable i.Fits := inferInstanceAs (Decidable (_ = _))

def operands : Instr → Bytes
  | nop | ret => []
  | single _ r => [r]
  | pair _ a b => [a, b]
  | triple _ a b c => [a, b, c]
  | call count target => count :: Wire.leBytes 2 target.toNat
  | jmp target => Wire.leBytes 2 target.toNat
  | jmpif r target | jmpnot r target => r :: Wire.leBytes 2 target.toNat
  | throw data => Wire.counted data
  | load dst ty data => dst :: ty.byte :: Wire.counted data
  | cast src dst ty => [src, dst, ty.byte]
  | left src dst length | right src dst length => src :: dst :: Wire.VarInt.encode length
  | substr src dst index length =>
    src :: dst :: (Wire.VarInt.encode index ++ Wire.VarInt.encode length)

def encode (i : Instr) : Bytes := i.opcode.byte :: i.operands

end Instr

namespace Decode
open Wire

def opcode : Decoder Opcode := do
  let b ← Decoder.byte
  match Opcode.ofByte? b with
  | some op => return op
  | none => throw (.unknownTag b)

def typeTag : Decoder TypeTag := do
  let b ← Decoder.byte
  match TypeTag.ofByte? b with
  | some ty => return ty
  | none => throw (.unknownTag b)

def pair : Decoder (Reg × Reg) := fun input =>
  match input.rest with
  | a :: b :: _ => .ok (a, b) (input.advance 2)
  | _ => .error (.truncated 2 input.remaining) input

def triple : Decoder (Reg × Reg × Reg) := fun input =>
  match input.rest with
  | a :: b :: c :: _ => .ok (a, b, c) (input.advance 3)
  | _ => .error (.truncated 3 input.remaining) input

def operands (op : Opcode) : Decoder Instr :=
  match op.layout with
  | .none => return if op = .ret then .ret else .nop
  | .one => return .single op (← Decoder.byte)
  | .two => do let (a, b) ← pair; return .pair op a b
  | .three => do let (a, b, c) ← triple; return .triple op a b c
  | .call => return .call (← Decoder.byte) (← Decoder.u16)
  | .jump => return .jmp (← Decoder.u16)
  | .branch => do
    let r ← Decoder.byte
    let target ← Decoder.u16
    return if op = .jmpif then .jmpif r target else .jmpnot r target
  | .data => return .throw (← Decoder.counted)
  | .load => return .load (← Decoder.byte) (← typeTag) (← Decoder.counted)
  | .cast => return .cast (← Decoder.byte) (← Decoder.byte) (← typeTag)
  | .length => do
    let src ← Decoder.byte
    let dst ← Decoder.byte
    let length ← VarInt.read
    return if op = .left then .left src dst length else .right src dst length
  | .range => return .substr (← Decoder.byte) (← Decoder.byte) (← VarInt.read) (← VarInt.read)

def instr : Decoder Instr := do operands (← opcode)

end Decode
end ChainScript.Machine
