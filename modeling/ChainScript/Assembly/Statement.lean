import ChainScript.Assembly.Invocation

/-! Programs written as mnemonic statements. The first statement that is refused decides; only
when all are taken does linking look at the labels. -/
namespace ChainScript
open Machine

inductive Statement where
  | nop
  | ret
  | push (r : Reg)
  | pop (r : Reg)
  | mov (src dst : Reg)
  | cpy (src dst : Reg)
  | swap (a b : Reg)
  | inc (r : Reg)
  | dec (r : Reg)
  | this (dst : Reg)
  | eq (a b dst : Reg)
  | add (a b dst : Reg)
  | sub (a b dst : Reg)
  | put (src dst key : Reg)
  | load (r : Reg) (v : Value)
  | label (name : String)
  | jmp (label : String)
  | jmpif (r : Reg) (label : String)
  | jmpnot (r : Reg) (label : String)
  | call (label : String) (count : UInt8)
  | ctx (src dst : Reg)
  | switch (r : Reg)
  | extcall (method : String)
  | interop (method : String) (args : List Value)
  | contract (name method : String) (args : List Value)
  deriving Repr

open Assembly in
def Statement.perform : Statement → Assembly Unit
  | nop => instr .nop
  | ret => instr .ret
  | push r => instr (.push r)
  | pop r => instr (.pop r)
  | mov src dst => instr (.mov src dst)
  | cpy src dst => instr (.cpy src dst)
  | swap a b => instr (.swap a b)
  | inc r => instr (.inc r)
  | dec r => instr (.dec r)
  | this dst => instr (.this dst)
  | eq a b dst => instr (.eq a b dst)
  | add a b dst => instr (.arith .add a b dst)
  | sub a b dst => instr (.arith .sub a b dst)
  | put src dst key => instr (.put src dst key)
  | load r v => Assembly.load r v
  | label name => Assembly.label name
  | jmp name => jump .jmp name 0
  | jmpif r name => conditionalJump .jmpif r name
  | jmpnot r name => conditionalJump .jmpnot r name
  | call name count => Assembly.call name count
  | ctx src dst => instr (.ctx src dst)
  | switch r => instr (.switch r)
  | extcall method => Assembly.extcall method 0
  | interop method args => invoke (.interop method args)
  | contract name method args => invoke (.contract name method args)

def assemble (program : List Statement) : Except Refusal Bytes :=
  match (do program.forM Statement.perform; Assembly.finish : Assembly Bytes) Draft.empty with
  | .ok code _ => .ok code
  | .error refusal _ => .error refusal

end ChainScript
