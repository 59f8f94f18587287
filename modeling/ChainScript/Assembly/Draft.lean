import ChainScript.Machine.Limits
import ChainScript.Machine.Operation
import ChainScript.Refusal
import ChainScript.Wire.Slot

/-! A script being written. Code only ever grows at its end. A jump or a call to a label leaves
two zero bytes, and linking fills them once all labels are known, so labels may be used before
they stand anywhere. A refused step keeps whatever it wrote before it was refused. -/
namespace ChainScript
open Machine

structure Reference where
  slot : Nat
  label : String
  deriving DecidableEq, Repr

/-- The code so far, the labels placed in it (latest first) and its references (earliest first). -/
structure Draft where
  code : Bytes
  labels : List (String × Nat)
  references : List Reference
  deriving DecidableEq, Repr

namespace Draft

def empty : Draft := ⟨[], [], []⟩

def offset (d : Draft) : Nat := d.code.length

/-- Where a label stands. A label that was placed twice stands where it was placed last. -/
def labelOffset? (d : Draft) (label : String) : Option Nat := d.labels.lookup label

def target (d : Draft) (label : String) : Except Refusal UInt16 :=
  match d.labelOffset? label with
  | none => .error (.undefinedLabel label)
  | some offset =>
    if offset ≤ targetLimit then .ok offset.toUInt16 else .error (.outOfRange offset targetLimit)

def patch (d : Draft) (code : Bytes) (r : Reference) : Except Refusal Bytes := do
  return (Wire.Slot.fill code r.slot (← d.target r.label)).getD code

/-- The code with every slot filled, or the refusal of the first slot that cannot be. -/
def link (d : Draft) : Except Refusal Bytes := d.references.foldlM d.patch d.code

end Draft

abbrev Assembly := EStateM Refusal Draft

namespace Assembly

def begin : Assembly Unit := set Draft.empty

def raw (bytes : Bytes) : Assembly Unit := modify fun d => { d with code := d.code ++ bytes }

def op (op : Opcode) (operands : Bytes) : Assembly Unit := raw (op.byte :: operands)

def instr (i : Instr) : Assembly Unit := raw i.encode

def throwData (data : Bytes) : Assembly Unit := raw (Opcode.throw.byte :: Wire.counted data)

theorem throwData_eq_instr (data : Bytes) : throwData data = instr (.throw data) := rfl

def varInt (n : UInt64) : Assembly Unit := raw (Wire.VarInt.encode n)

def hex (digits : String) : Assembly Unit :=
  match Hex.decode digits with
  | .ok bytes => raw bytes
  | .error _ => throw .malformedScript

def checkShort (n : UInt64) : Assembly Unit :=
  if n ≤ 0xFFFF then return else throw (.outOfRange n.toNat 0xFFFF)

def left (src dst : Reg) (length : UInt64) : Assembly Unit := do
  checkShort length
  instr (.left src dst length)

def right (src dst : Reg) (length : UInt64) : Assembly Unit := do
  checkShort length
  instr (.right src dst length)

def substr (src dst : Reg) (index length : UInt64) : Assembly Unit := do
  checkShort index
  checkShort length
  instr (.substr src dst index length)

def label (name : String) : Assembly Unit := do
  op .nop []
  modify fun d => { d with labels := (name, d.offset) :: d.labels }

def reserve (label : String) : Assembly Unit :=
  modify fun d =>
    { d with code := d.code ++ [0, 0], references := d.references ++ [⟨d.offset, label⟩] }

def jump (op : Opcode) (label : String) (r : Reg) : Assembly Unit := do
  if op.isJump then
    raw (op.byte :: if op = .jmp then [] else [r])
    reserve label
  else throw (.notAJump op)

def conditionalJump (op : Opcode) (r : Reg) (label : String) : Assembly Unit :=
  if op = .jmpif ∨ op = .jmpnot then jump op label r else throw (.notAJump op)

def call (label : String) (count : UInt8) : Assembly Unit := do
  if 1 ≤ count.toNat ∧ count.toNat ≤ registerCount then
    raw [Opcode.call.byte, count]
    reserve label
  else throw (.registerCount count)

def link : Assembly Bytes := do
  match (← get).link with
  | .ok code => return code
  | .error refusal => throw refusal

/-- Ends the script with `ret` and links it. The `ret` stays also when linking is refused. -/
def finish : Assembly Bytes := do
  op .ret []
  link

def finishText : Assembly String := do return Hex.upper (← finish)

end Assembly
end ChainScript
