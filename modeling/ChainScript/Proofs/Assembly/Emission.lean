import ChainScript.Proofs.Assembly.Piece

/-! The emission of every call, and that a run of calls adds just the emissions of its calls to the
draft. A refused call counts with the pieces it wrote before it was refused. -/
namespace ChainScript
open Machine

namespace Emission

/-- An operation with bare operands. Without operands `nop` and `ret` are complete. -/
def op (o : Opcode) (operands : Bytes) : Emission :=
  match o, operands with
  | .nop, [] => instr .nop
  | .ret, [] => instr .ret
  | o, operands => one (.raw (o.byte :: operands))

def hex (digits : String) : Emission :=
  match Hex.decode digits with
  | .ok bytes => one (.raw bytes)
  | .error _ => refused .malformedScript

def short (i : Instr) : List UInt64 → Emission
  | [] => instr i
  | n :: ns => if n ≤ 0xFFFF then short i ns else refused (.outOfRange n.toNat 0xFFFF)

def jump (o : Opcode) (label : String) (r : Reg) : Emission :=
  match Branch.ofJump? o r with
  | some b => one (.branch b label)
  | none => refused (.notAJump o)

def conditionalJump (o : Opcode) (r : Reg) (label : String) : Emission :=
  if o = .jmp then refused (.notAJump o) else jump o label r

def call (label : String) (count : UInt8) : Emission :=
  if 1 ≤ count.toNat ∧ count.toNat ≤ registerCount then one (.branch (.call count) label)
  else refused (.registerCount count)

def loadBytes (r : Reg) (data : Bytes) (ty : TypeTag) : Emission :=
  if data.length ≤ loadLimit then instr (.load r ty data) else refused (.oversized data.length)

def loadText (r : Reg) (s : String) : Emission :=
  match Text.SingleByte.encode s with
  | .ok data => loadBytes r data .string
  | .error c => refused (.unencodable c)

mutual

def load (r : Reg) : Value → Emission
  | .text s | .number s => loadText r s
  | .bool b => loadBytes r [if b then 1 else 0] .bool
  | .time t => loadBytes r t.encode .timestamp
  | .bytes data => loadBytes r data .bytes
  | .enum n => loadBytes r (Wire.leBytes 4 n.toNat) .enum
  | .array items =>
    if r.toNat + 2 < registerCount then instr (.cast r r .none) ++ loadItems r 0 items
    else refused (.outOfRange (r.toNat + 2) (registerCount - 1))

def loadItems (r : Reg) (index : Nat) : List Value → Emission
  | [] => nothing
  | v :: vs =>
    load (r + 1) v ++ (loadText (r + 2) (toString index) ++
      (instr (.put (r + 1) r (r + 2)) ++ loadItems r (index + 1) vs))

end

def pushValue (v : Value) : Emission := load 0 v ++ instr (.push 0)

def pushValues : List Value → Emission
  | [] => nothing
  | v :: vs => pushValue v ++ pushValues vs

def extcall (method : String) (r : Reg) : Emission := loadText r method ++ instr (.extcall r)

def invoke : Invocation → Emission
  | .contract name method args =>
    pushValues args.reverse ++ (loadText 0 method ++ (instr (.push 0) ++
      (loadText 0 name ++ (instr (.ctx 0 1) ++ instr (.switch 1)))))
  | .interop method args => pushValues args.reverse ++ extcall method 0

end Emission

/-- What a call adds to the draft. A restart adds nothing, and ending a script adds its `ret`. -/
def Call.emission : Call → Emission
  | .begin => .nothing
  | .op o operands => .op o operands
  | .instr i => .instr i
  | .raw bytes => .one (.raw bytes)
  | .varInt n => .one (.raw (Wire.VarInt.encode n))
  | .hex digits => .hex digits
  | .throw data => .instr (.throw data)
  | .left src dst length => .short (.left src dst length) [length]
  | .right src dst length => .short (.right src dst length) [length]
  | .substr src dst index length => .short (.substr src dst index length) [index, length]
  | .loadBytes r data ty => .loadBytes r data ty
  | .load r v => .load r v
  | .extcall method r => .extcall method r
  | .label name => Emission.one (.label name)
  | .jump o name r => .jump o name r
  | .conditionalJump o r name => .conditionalJump o r name
  | .call name count => .call name count
  | .arguments args => .pushValues args.reverse
  | .invoke i => .invoke i
  | .readToken symbol id dst => .invoke (.readToken symbol id) ++ .instr (.pop dst)
  | .finish => .instr .ret

namespace Assembly

theorem emits_op (o : Opcode) (operands : Bytes) : Emits (op o operands) (.op o operands) := by
  unfold Emission.op
  split <;> exact fun _ => rfl

theorem emits_hex (digits : String) : Emits (hex digits) (.hex digits) := by
  rw [hex, Emission.hex]
  cases Hex.decode digits with
  | ok bytes => exact emits_raw bytes
  | error fault => exact emits_throw .malformedScript

theorem emits_throwData (data : Bytes) : Emits (throwData data) (.instr (.throw data)) := by
  rw [throwData_eq_instr]
  exact emits_instr _

theorem Emits.checkShort {step : Assembly Unit} {i : Instr} {ns : List UInt64} (n : UInt64)
    (h : Emits step (.short i ns)) : Emits (do checkShort n; step) (.short i (n :: ns)) := by
  rw [Assembly.checkShort, Emission.short]
  by_cases hn : n ≤ 0xFFFF
  · rw [if_pos hn, if_pos hn]
    exact h
  · rw [if_neg hn, if_neg hn]
    exact emits_throw _

theorem emits_label (name : String) : Emits (label name) (.one (.label name)) := fun d => by
  have hoffset : (d.add (.instr .nop)).offset = d.offset + 1 := by rw [Draft.offset_add]; rfl
  change EStateM.Result.ok () { d.add (.instr .nop) with
    labels := (name, (d.add (.instr .nop)).offset) :: d.labels } = _
  rw [hoffset]
  rfl

/-- The slot comes right behind what stands in front of the target. -/
theorem emits_branch (b : Branch) (label : String) :
    Emits (do raw b.lead; reserve label) (.one (.branch b label)) := fun d => by
  have hoffset : (d.add (.raw b.lead)).offset = d.offset + b.lead.length := Draft.offset_add d _
  change EStateM.Result.ok () { d.add (.raw b.lead) with
    code := (d.code ++ b.lead) ++ [0, 0]
    references := d.references ++ [(⟨(d.add (.raw b.lead)).offset, label⟩ : Reference)] } = _
  rw [hoffset, List.append_assoc]
  rfl

theorem emits_jump (o : Opcode) (label : String) (r : Reg) :
    Emits (jump o label r) (.jump o label r) := by
  cases o with
  | jmp => exact emits_branch .jmp label
  | jmpif => exact emits_branch (.jmpif r) label
  | jmpnot => exact emits_branch (.jmpnot r) label
  | _ => exact emits_throw _

theorem emits_conditionalJump (o : Opcode) (r : Reg) (label : String) :
    Emits (conditionalJump o r label) (.conditionalJump o r label) := by
  cases o with
  | jmpif => exact emits_jump .jmpif label r
  | jmpnot => exact emits_jump .jmpnot label r
  | _ => exact emits_throw _

theorem emits_call (label : String) (count : UInt8) :
    Emits (call label count) (.call label count) := by
  rw [call, Emission.call]
  split
  · exact emits_branch (.call count) label
  · exact emits_throw _

theorem emits_loadBytes (r : Reg) (data : Bytes) (ty : TypeTag) :
    Emits (loadBytes r data ty) (.loadBytes r data ty) := by
  rw [loadBytes_eq_instr, Emission.loadBytes]
  split
  · exact emits_instr _
  · exact emits_throw _

theorem emits_loadText (r : Reg) (s : String) : Emits (loadText r s) (.loadText r s) := by
  rw [loadText, Emission.loadText]
  cases Text.SingleByte.encode s with
  | ok data => exact emits_loadBytes r data .string
  | error c => exact emits_throw _

mutual

theorem emits_load (r : Reg) (v : Value) : Emits (load r v) (.load r v) := by
  cases v with
  | text s | number s => exact emits_loadText r s
  | bool | time | bytes | enum => exact emits_loadBytes r _ _
  | array items =>
    rw [load, Emission.load]
    split
    · exact (emits_instr _).bind (emits_loadItems r 0 items)
    · exact emits_throw _

theorem emits_loadItems (r : Reg) (index : Nat) (items : List Value) :
    Emits (loadItems r index items) (.loadItems r index items) := by
  cases items with
  | nil => exact emits_nothing
  | cons v vs =>
    rw [loadItems, Emission.loadItems]
    exact (emits_load (r + 1) v).bind ((emits_loadText (r + 2) _).bind
      ((emits_instr _).bind (emits_loadItems r (index + 1) vs)))

end

theorem emits_pushValues (vs : List Value) : Emits (vs.forM pushValue) (.pushValues vs) := by
  induction vs with
  | nil => exact emits_nothing
  | cons v vs ih => exact ((emits_load 0 v).bind (emits_instr _)).bind ih

theorem emits_extcall (method : String) (r : Reg) : Emits (extcall method r) (.extcall method r) :=
  (emits_loadText r method).bind (emits_instr _)

theorem emits_invoke (i : Invocation) : Emits (invoke i) (.invoke i) := by
  cases i with
  | contract name method args =>
    exact (emits_pushValues args.reverse).bind ((emits_loadText 0 method).bind ((emits_instr _).bind
      ((emits_loadText 0 name).bind ((emits_instr _).bind (emits_instr _)))))
  | interop method args => exact (emits_pushValues args.reverse).bind (emits_extcall method 0)

theorem link_apply (d : Draft) :
    link d = match d.link with
      | .ok code => .ok code d
      | .error refusal => .error refusal d := by
  have hget : link d = (match d.link with
      | .ok code => pure code
      | .error refusal => throw refusal : Assembly Bytes) d := rfl
  rw [hget]
  cases d.link <;> rfl

theorem finish_apply (d : Draft) :
    finish d = match (d.add (.instr .ret)).link with
      | .ok code => .ok code (d.add (.instr .ret))
      | .error refusal => .error refusal (d.add (.instr .ret)) :=
  link_apply (d.add (.instr .ret))

end Assembly

namespace Call
open Assembly

/-- The calls that only add to the draft and do not look at what is in it. -/
def Adds : Call → Prop
  | begin | finish => False
  | _ => True

theorem emits_perform {c : Call} (h : c.Adds) : Emits c.perform c.emission := by
  cases c with
  | begin | finish => exact h.elim
  | op o operands => exact emits_op o operands
  | instr i => exact emits_instr i
  | raw bytes => exact emits_raw bytes
  | varInt n => exact emits_raw _
  | hex digits => exact emits_hex digits
  | throw data => exact emits_throwData data
  | left src dst length => exact (emits_instr _).checkShort length
  | right src dst length => exact (emits_instr _).checkShort length
  | substr src dst index length => exact ((emits_instr _).checkShort length).checkShort index
  | loadBytes r data ty => exact emits_loadBytes r data ty
  | load r v => exact emits_load r v
  | extcall method r => exact emits_extcall method r
  | label name => exact emits_label name
  | jump o name r => exact emits_jump o name r
  | conditionalJump o r name => exact emits_conditionalJump o r name
  | call name count => exact emits_call name count
  | arguments args => exact emits_pushValues args.reverse
  | invoke i => exact emits_invoke i
  | readToken symbol id dst => exact (emits_invoke _).bind (emits_instr _)

/-- The draft that a call leaves, refused or not. -/
theorem outcome_fst {c : Call} (h : c ≠ begin) (d : Draft) :
    (c.outcome d).1 = d.extend c.emission.pieces := by
  by_cases hadds : c.Adds
  · rw [outcome, emits_perform hadds d, Emission.outcome]
    cases c.emission.refusal <;> rfl
  · cases c with
    | begin => exact absurd rfl h
    | finish =>
      have hfinish : finish.perform d =
          match (d.add (.instr .ret)).link with
          | .ok _ => .ok () (d.add (.instr .ret))
          | .error refusal => .error refusal (d.add (.instr .ret)) := by
        change EStateM.bind Assembly.finish (fun _ => pure ()) d = _
        rw [EStateM.bind, finish_apply]
        cases (d.add (.instr .ret)).link <;> rfl
      rw [outcome, hfinish]
      cases (d.add (.instr .ret)).link <;> rfl
    | _ => exact absurd trivial hadds

def after (ps : List Piece) : Call → List Piece
  | begin => []
  | c => ps ++ c.emission.pieces

theorem after_of_ne {c : Call} (h : c ≠ begin) (ps : List Piece) :
    after ps c = ps ++ c.emission.pieces := by
  cases c with
  | begin => exact absurd rfl h
  | _ => rfl

def written (calls : List Call) : List Piece := calls.foldl after []

theorem outcome_extend (c : Call) (ps : List Piece) :
    (c.outcome (Draft.empty.extend ps)).1 = Draft.empty.extend (c.after ps) := by
  by_cases h : c = begin
  · subst h
    rfl
  · rw [outcome_fst h, ← Draft.extend_append, after_of_ne h]

/-- A run of calls adds the pieces that its calls write and does nothing else. -/
theorem run_empty (calls : List Call) :
    run calls Draft.empty = Draft.empty.extend (written calls) := by
  have hrun (ps : List Piece) :
      run calls (Draft.empty.extend ps) = Draft.empty.extend (calls.foldl after ps) := by
    induction calls generalizing ps with
    | nil => rfl
    | cons c calls ih => rw [run, List.foldl_cons, outcome_extend, List.foldl_cons, ← ih, run]
  exact hrun []

end Call
end ChainScript
