/-! The types of register values and the bytes that announce them. -/
namespace ChainScript.Machine

inductive TypeTag where
  | none | struct | bytes | number | string | timestamp | bool | enum | object
  deriving DecidableEq, Repr

namespace TypeTag

def all : List TypeTag :=
  [.none, .struct, .bytes, .number, .string, .timestamp, .bool, .enum, .object]

def byte (ty : TypeTag) : UInt8 := ty.ctorIdx.toUInt8

def ofByte? (b : UInt8) : Option TypeTag := all[b.toNat]?

theorem ofByte?_byte (ty : TypeTag) : ofByte? ty.byte = some ty := by cases ty <;> rfl

def name : TypeTag → String
  | none => "none" | struct => "struct" | bytes => "bytes" | number => "number"
  | string => "string" | timestamp => "timestamp" | bool => "bool" | enum => "enum"
  | object => "object"

def fixedLength? : TypeTag → Option Nat
  | bool => some 1
  | timestamp | enum => some 4
  | _ => .none

end TypeTag
end ChainScript.Machine
