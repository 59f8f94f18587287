import ChainScript.Machine.Instr

/-! The operations over registers by name, each with its operands in the order of the bytes. -/
namespace ChainScript.Machine.Instr

abbrev push (r : Reg) : Instr := .single .push r
abbrev pop (r : Reg) : Instr := .single .pop r
abbrev extcall (r : Reg) : Instr := .single .extcall r
abbrev inc (r : Reg) : Instr := .single .inc r
abbrev dec (r : Reg) : Instr := .single .dec r
abbrev this (dst : Reg) : Instr := .single .this dst
abbrev switch (r : Reg) : Instr := .single .switch r

abbrev mov (src dst : Reg) : Instr := .pair .mov src dst
abbrev cpy (src dst : Reg) : Instr := .pair .cpy src dst
abbrev swap (a b : Reg) : Instr := .pair .swap a b
abbrev size (src dst : Reg) : Instr := .pair .size src dst
abbrev count (src dst : Reg) : Instr := .pair .count src dst
abbrev not (src dst : Reg) : Instr := .pair .not src dst
abbrev sign (src dst : Reg) : Instr := .pair .sign src dst
abbrev neg (src dst : Reg) : Instr := .pair .neg src dst
abbrev abs (src dst : Reg) : Instr := .pair .abs src dst
abbrev ctx (src dst : Reg) : Instr := .pair .ctx src dst

abbrev cat (a b dst : Reg) : Instr := .triple .cat a b dst
abbrev and (a b dst : Reg) : Instr := .triple .and a b dst
abbrev or (a b dst : Reg) : Instr := .triple .or a b dst
abbrev xor (a b dst : Reg) : Instr := .triple .xor a b dst
abbrev eq (a b dst : Reg) : Instr := .triple .eq a b dst
abbrev lt (a b dst : Reg) : Instr := .triple .lt a b dst
abbrev gt (a b dst : Reg) : Instr := .triple .gt a b dst
abbrev lte (a b dst : Reg) : Instr := .triple .lte a b dst
abbrev gte (a b dst : Reg) : Instr := .triple .gte a b dst
abbrev arith (op : Arith) (a b dst : Reg) : Instr := .triple op.opcode a b dst

/-- Stores the value of `src` in the struct in `dst` under the key in `key`. -/
abbrev put (src dst key : Reg) : Instr := .triple .put src dst key

/-- Copies what the struct in `src` holds under the key in `key` to `dst`. -/
abbrev get (src dst key : Reg) : Instr := .triple .get src dst key

/-- The instructions that are written by their names, on whatever registers. -/
inductive Named : Instr → Prop where
  | push (r) : Named (push r)
  | pop (r) : Named (pop r)
  | extcall (r) : Named (extcall r)
  | inc (r) : Named (inc r)
  | dec (r) : Named (dec r)
  | this (dst) : Named (this dst)
  | switch (r) : Named (switch r)
  | mov (src dst) : Named (mov src dst)
  | cpy (src dst) : Named (cpy src dst)
  | swap (a b) : Named (swap a b)
  | size (src dst) : Named (size src dst)
  | count (src dst) : Named (count src dst)
  | not (src dst) : Named (not src dst)
  | sign (src dst) : Named (sign src dst)
  | neg (src dst) : Named (neg src dst)
  | abs (src dst) : Named (abs src dst)
  | ctx (src dst) : Named (ctx src dst)
  | cast (src dst ty) : Named (cast src dst ty)
  | cat (a b dst) : Named (cat a b dst)
  | and (a b dst) : Named (and a b dst)
  | or (a b dst) : Named (or a b dst)
  | xor (a b dst) : Named (xor a b dst)
  | eq (a b dst) : Named (eq a b dst)
  | lt (a b dst) : Named (lt a b dst)
  | gt (a b dst) : Named (gt a b dst)
  | lte (a b dst) : Named (lte a b dst)
  | gte (a b dst) : Named (gte a b dst)
  | arith (op a b dst) : Named (arith op a b dst)
  | put (src dst key) : Named (put src dst key)
  | get (src dst key) : Named (get src dst key)

end ChainScript.Machine.Instr
