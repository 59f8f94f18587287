import ChainScript.Machine.Instr
import ChainScript.Value
import ChainScript.Wire.Forward

/-! Disassembly: the instructions of a code with their offsets, and their printed listing. -/
namespace ChainScript.Machine

namespace Instr

def lead (op : Opcode) : String :=
  op.mnemonic ++ String.ofList (List.replicate (8 - op.mnemonic.length) ' ')

def regText (r : Reg) : String := s!"r{r.toNat}"

def addressText (target : UInt16) : String :=
  Hex.lower (Wire.leBytes 2 target.toNat).reverse ++ ".h"

/-- Loaded data as the value it stands for, or as its type and bytes if it stands for none. -/
def dataText (ty : TypeTag) (data : Bytes) : String :=
  match Value.ofRaw ty data with
  | .ok v => v.render
  | .error _ => ty.name ++ ":0x" ++ Hex.lower data

def operandTexts : Instr → List String
  | nop | ret => []
  | single _ r => [regText r]
  | pair _ a b => [regText a, regText b]
  | triple _ a b c => [regText a, regText b, regText c]
  | call count target => [addressText target, toString count.toNat]
  | jmp target => [addressText target]
  | jmpif r target | jmpnot r target => [regText r, addressText target]
  | throw data => ["0x" ++ Hex.lower data]
  | load dst ty data => [regText dst, dataText ty data]
  | cast src dst ty => [regText src, regText dst, ty.name]
  | left src dst length | right src dst length =>
    [regText src, regText dst, toString length.toNat]
  | substr src dst index length =>
    [regText src, regText dst, toString index.toNat, toString length.toNat]

def render (i : Instr) : String :=
  match i.operandTexts with
  | [] => i.opcode.mnemonic
  | texts => lead i.opcode ++ ", ".intercalate texts

end Instr

namespace Decode
open Wire Wire.Decoder

theorem forward_typeTag : Forward typeTag := by
  refine forward_byte.bind fun b => ?_
  split
  · exact .pure _
  · exact .fail _

theorem forward_pair : Forward pair := by
  intro input
  unfold pair
  split
  next h => exact ⟨2, by simp [h], rfl⟩
  next => exact Input.Reaches.refl _

theorem forward_triple : Forward triple := by
  intro input
  unfold triple
  split
  next h => exact ⟨3, by simp [h], rfl⟩
  next => exact Input.Reaches.refl _

theorem forward_operands (op : Opcode) : Forward (operands op) := by
  unfold operands
  split
  · split <;> exact .pure _
  · exact forward_byte.bind fun _ => .pure _
  · exact forward_pair.bind fun _ => .pure _
  · exact forward_triple.bind fun _ => .pure _
  · exact forward_byte.bind fun _ => forward_u16.bind fun _ => .pure _
  · exact forward_u16.bind fun _ => .pure _
  · exact forward_byte.bind fun _ => forward_u16.bind fun _ => by split <;> exact .pure _
  · exact forward_counted.bind fun _ => .pure _
  · exact forward_byte.bind fun _ => forward_typeTag.bind fun _ => forward_counted.bind fun _ => .pure _
  · exact forward_byte.bind fun _ => forward_byte.bind fun _ => forward_typeTag.bind fun _ => .pure _
  · exact forward_byte.bind fun _ => forward_byte.bind fun _ => forward_varInt.bind fun _ => by
      split <;> exact .pure _
  · exact forward_byte.bind fun _ => forward_byte.bind fun _ => forward_varInt.bind fun _ =>
      forward_varInt.bind fun _ => .pure _

theorem shortens_opcode : Shortens opcode := by
  refine shortens_byte.bind fun b => ?_
  split
  · exact .pure _
  · exact .fail _

/-- A decoded instruction takes at least its opcode byte. -/
theorem shortens_instr : Shortens instr := shortens_opcode.bind forward_operands

end Decode

/-- The instructions of the code that is left, each with its offset, after those found so far
(latest first). -/
def disassembleFrom (found : List (Nat × Instr)) (input : Wire.Input) :
    Except Wire.Fault (List (Nat × Instr)) :=
  if input.isEmpty then .ok found.reverse
  else match _h : Decode.instr input with
    | .ok i next => disassembleFrom ((input.pos, i) :: found) next
    | .error fault _ => .error fault
termination_by input.rest.length
decreasing_by exact Decode.shortens_instr _h

def disassemble (code : Bytes) : Except Wire.Fault (List (Nat × Instr)) :=
  disassembleFrom [] (Wire.Input.ofBytes code)

def offsetText (offset : Nat) : String :=
  let digits := (Nat.toDigits 16 offset).map Char.toUpper
  String.ofList (List.replicate (6 - digits.length) '0' ++ digits)

def line (offset : Nat) (text : String) : String := "@x" ++ offsetText offset ++ ": " ++ text ++ "\n"

/-- Adds the lines of the code that is left to a listing. The first fault ends it. -/
def listingFrom (lines : String) (input : Wire.Input) : String :=
  if input.isEmpty then lines
  else match _h : Decode.instr input with
    | .ok i next => listingFrom (lines ++ line input.pos i.render) next
    | .error fault _ => lines ++ line input.pos ("; <" ++ fault.message ++ ">")
termination_by input.rest.length
decreasing_by exact Decode.shortens_instr _h

def listing (code : Bytes) : String := listingFrom "" (Wire.Input.ofBytes code)

end ChainScript.Machine
