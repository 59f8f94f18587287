import ChainScript.Assembly.Load

/-! Calls of contracts and of the runtime. Arguments go onto the stack last first, so the callee
pops them in the order in which they were given. Register 0 is used for everything that is
pushed, and register 1 for the context of a contract. -/
namespace ChainScript
open Machine

inductive Invocation where
  | contract (name method : String) (args : List Value)
  | interop (method : String) (args : List Value)
  deriving Repr, BEq

namespace Assembly

def pushValue (v : Value) : Assembly Unit := do
  load 0 v
  instr (.push 0)

def arguments (args : List Value) : Assembly Unit := args.reverse.forM pushValue

def extcall (method : String) (r : Reg) : Assembly Unit := do
  loadText r method
  instr (.extcall r)

def invoke : Invocation → Assembly Unit
  | .contract name method args => do
    arguments args
    loadText 0 method
    instr (.push 0)
    loadText 0 name
    instr (.ctx 0 1)
    instr (.switch 1)
  | .interop method args => do
    arguments args
    extcall method 0

end Assembly
end ChainScript
