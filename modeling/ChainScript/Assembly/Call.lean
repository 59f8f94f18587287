import ChainScript.Assembly.Token

/-! The steps of writing a script as data, and their runs. -/
namespace ChainScript
open Machine

inductive Call where
  | begin
  | op (op : Opcode) (operands : Bytes)
  | instr (i : Instr)
  | raw (bytes : Bytes)
  | varInt (n : UInt64)
  | hex (digits : String)
  | throw (data : Bytes)
  | left (src dst : Reg) (length : UInt64)
  | right (src dst : Reg) (length : UInt64)
  | substr (src dst : Reg) (index length : UInt64)
  | loadBytes (r : Reg) (data : Bytes) (ty : TypeTag)
  | load (r : Reg) (v : Value)
  | extcall (method : String) (r : Reg)
  | label (name : String)
  | jump (op : Opcode) (label : String) (r : Reg)
  | conditionalJump (op : Opcode) (r : Reg) (label : String)
  | call (label : String) (count : UInt8)
  | arguments (args : List Value)
  | invoke (i : Invocation)
  | readToken (symbol : String) (id : Value) (dst : Reg)
  | finish
  deriving Repr

namespace Call

def perform : Call → Assembly Unit
  | begin => Assembly.begin
  | op o operands => Assembly.op o operands
  | instr i => Assembly.instr i
  | raw bytes => Assembly.raw bytes
  | varInt n => Assembly.varInt n
  | hex digits => Assembly.hex digits
  | throw data => Assembly.throwData data
  | left src dst length => Assembly.left src dst length
  | right src dst length => Assembly.right src dst length
  | substr src dst index length => Assembly.substr src dst index length
  | loadBytes r data ty => Assembly.loadBytes r data ty
  | load r v => Assembly.load r v
  | extcall method r => Assembly.extcall method r
  | label name => Assembly.label name
  | jump o name r => Assembly.jump o name r
  | conditionalJump o r name => Assembly.conditionalJump o r name
  | call name count => Assembly.call name count
  | arguments args => Assembly.arguments args
  | invoke i => Assembly.invoke i
  | readToken symbol id dst => Assembly.readToken symbol id dst
  | finish => do _ ← Assembly.finish

def outcome (c : Call) (d : Draft) : Draft × Option Refusal :=
  match c.perform d with
  | .ok _ after => (after, none)
  | .error refusal after => (after, some refusal)

/-- The draft after a run of calls, which goes on after refusals. -/
def run (calls : List Call) (d : Draft) : Draft := calls.foldl (fun d c => (c.outcome d).1) d

end Call
end ChainScript
