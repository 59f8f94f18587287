/-! The operations of the machine. An opcode's byte is its place in `Opcode.all`, which lists the
constructors in their order. -/
namespace ChainScript.Machine

inductive Opcode where
  | nop | mov | cpy | push | pop | swap | call | extcall | jmp | jmpif | jmpnot | ret | throw | load
  | cast | cat | substr | left | right | size | count | not | and | or | xor | eq | lt | gt | lte | gte
  | inc | dec | sign | neg | abs | add | sub | mul | div | mod | shl | shr | min | max
  | this | ctx | switch | put | get
  deriving DecidableEq, Repr

namespace Opcode

def all : List Opcode :=
  [.nop, .mov, .cpy, .push, .pop, .swap, .call, .extcall, .jmp, .jmpif, .jmpnot, .ret, .throw, .load,
   .cast, .cat, .substr, .left, .right, .size, .count, .not, .and, .or, .xor, .eq, .lt, .gt, .lte, .gte,
   .inc, .dec, .sign, .neg, .abs, .add, .sub, .mul, .div, .mod, .shl, .shr, .min, .max,
   .this, .ctx, .switch, .put, .get]

def byte (op : Opcode) : UInt8 := op.ctorIdx.toUInt8

def ofByte? (b : UInt8) : Option Opcode := all[b.toNat]?

theorem ofByte?_byte (op : Opcode) : ofByte? op.byte = some op := by cases op <;> rfl

theorem byte_of_ofByte? {b : UInt8} {op : Opcode} (h : ofByte? b = some op) : op.byte = b := by
  have every : ∀ i : Fin 256, ∀ op, all[i.val]? = some op → op.ctorIdx = i.val := by
    intro i op hi
    have bound : i.val < all.length := (List.getElem?_eq_some_iff.1 hi).1
    have table : ∀ i : Fin 49, all[i.val].ctorIdx = i.val := by decide
    have hget := (List.getElem?_eq_some_iff.1 hi).2
    rw [← hget]
    exact table ⟨i.val, bound⟩
  have := every ⟨b.toNat, b.toNat_lt⟩ op h
  simp [byte, this]

def mnemonic : Opcode → String
  | nop => "nop" | mov => "mov" | cpy => "cpy" | push => "push" | pop => "pop" | swap => "swap"
  | call => "call" | extcall => "extcall" | jmp => "jmp" | jmpif => "jmpif" | jmpnot => "jmpnot"
  | ret => "ret" | throw => "throw" | load => "load" | cast => "cast" | cat => "cat"
  | substr => "substr" | left => "left" | right => "right" | size => "size" | count => "count"
  | not => "not" | and => "and" | or => "or" | xor => "xor" | eq => "eq" | lt => "lt" | gt => "gt"
  | lte => "lte" | gte => "gte" | inc => "inc" | dec => "dec" | sign => "sign" | neg => "neg"
  | abs => "abs" | add => "add" | sub => "sub" | mul => "mul" | div => "div" | mod => "mod"
  | shl => "shl" | shr => "shr" | min => "min" | max => "max" | this => "this" | ctx => "ctx"
  | switch => "switch" | put => "put" | get => "get"

def isJump : Opcode → Bool
  | jmp | jmpif | jmpnot => true
  | _ => false

inductive Layout where
  | none
  | one
  | two
  | three
  | call
  | jump
  | branch
  | data
  | load
  | cast
  | length
  | range
  deriving DecidableEq, Repr

def layout : Opcode → Layout
  | nop | ret => .none
  | push | pop | extcall | inc | dec | this | switch => .one
  | mov | cpy | swap | size | count | not | sign | neg | abs | ctx => .two
  | cat | and | or | xor | eq | lt | gt | lte | gte | add | sub | mul | div | mod | shl | shr
  | min | max | put | get => .three
  | call => .call
  | jmp => .jump
  | jmpif | jmpnot => .branch
  | throw => .data
  | load => .load
  | cast => .cast
  | left | right => .length
  | substr => .range

end Opcode

inductive Arith where
  | add | sub | mul | div | mod | shl | shr | min | max
  deriving DecidableEq, Repr

def Arith.opcode : Arith → Opcode
  | .add => .add | .sub => .sub | .mul => .mul | .div => .div | .mod => .mod
  | .shl => .shl | .shr => .shr | .min => .min | .max => .max

end ChainScript.Machine
