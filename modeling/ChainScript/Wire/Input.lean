import ChainScript.Hex
import ChainScript.Wire.LittleEndian

/-! Reading wire data. A decoder that fails still says where it stopped, so reads made of several
parts keep what their first parts consumed. -/
namespace ChainScript.Wire

inductive Fault where
  | truncated (wanted left : Nat)
  | unknownTag (tag : UInt8)
  | trailing (count : Nat)
  | badHex (fault : Hex.Fault)
  deriving DecidableEq, Repr

def Fault.message : Fault → String
  | .truncated wanted left => s!"attempt to read {wanted} bytes while only {left} bytes remain."
  | .unknownTag tag => "unknown tag byte 0x" ++ Hex.upper [tag] ++ "."
  | .trailing count => s!"{count} unexpected bytes after the end of data."
  | .badHex fault => "invalid hex encoding: " ++ fault.message

/-- A place in wire data: how many bytes were passed, and those still to come. -/
structure Input where
  pos : Nat
  rest : Bytes
  deriving DecidableEq, Repr

namespace Input

def ofBytes (data : Bytes) : Input := ⟨0, data⟩

def ofHex (digits : String) : Except Fault Input :=
  match Hex.decode digits with
  | .ok data => .ok (ofBytes data)
  | .error fault => .error (.badHex fault)

def remaining (input : Input) : Nat := input.rest.length

def isEmpty (input : Input) : Bool := input.rest.isEmpty

def advance (n : Nat) (input : Input) : Input := ⟨input.pos + n, input.rest.drop n⟩

end Input

abbrev Decoder := EStateM Fault Input

namespace Decoder

/-- Exactly `n` bytes, or none of them. -/
def take (n : Nat) : Decoder Bytes := fun input =>
  let front := input.rest.take n
  if front.length = n then .ok front (input.advance n)
  else .error (.truncated n input.remaining) input

def peek : Decoder UInt8 := fun input =>
  match input.rest with
  | [] => .error (.truncated 1 0) input
  | b :: _ => .ok b input

def byte : Decoder UInt8 := fun input =>
  match input.rest with
  | [] => .error (.truncated 1 0) input
  | b :: _ => .ok b (input.advance 1)

def u16 : Decoder UInt16 := do return (leValue (← take 2)).toUInt16
def u32 : Decoder UInt32 := do return (leValue (← take 4)).toUInt32
def u64 : Decoder UInt64 := do return (leValue (← take 8)).toUInt64

def ended : Decoder Unit := fun input =>
  if input.isEmpty then .ok () input else .error (.trailing input.remaining) input

def run (d : Decoder α) (data : Bytes) : Except Fault α :=
  match d (Input.ofBytes data) with
  | .ok value _ => .ok value
  | .error fault _ => .error fault

end Decoder
end ChainScript.Wire
