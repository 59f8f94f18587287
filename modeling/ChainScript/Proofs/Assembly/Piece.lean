import ChainScript.Assembly.Call

/-! Pieces of a script before linking: what a step of writing adds to the end of a draft, with
labels still by name. -/
namespace ChainScript
open Machine

inductive Branch where
  | jmp
  | jmpif (r : Reg)
  | jmpnot (r : Reg)
  | call (count : UInt8)
  deriving DecidableEq, Repr

namespace Branch

def ofJump? (op : Opcode) (r : Reg) : Option Branch :=
  match op with
  | .jmp => some jmp
  | .jmpif => some (jmpif r)
  | .jmpnot => some (jmpnot r)
  | _ => none

def lead : Branch → Bytes
  | jmp => [Opcode.jmp.byte]
  | jmpif r => [Opcode.jmpif.byte, r]
  | jmpnot r => [Opcode.jmpnot.byte, r]
  | call count => [Opcode.call.byte, count]

def instr (target : UInt16) : Branch → Instr
  | jmp => .jmp target
  | jmpif r => .jmpif r target
  | jmpnot r => .jmpnot r target
  | call count => .call count target

theorem encode_instr (target : UInt16) (b : Branch) :
    (b.instr target).encode = b.lead ++ Wire.leBytes 2 target.toNat := by
  cases b <;> rfl

end Branch

inductive Piece where
  | raw (bytes : Bytes)
  | instr (i : Instr)
  | label (name : String)
  | branch (b : Branch) (label : String)
  deriving DecidableEq, Repr

namespace Piece

/-- The bytes of a piece as they are written. Those of a target are zero until linking. -/
def blank : Piece → Bytes
  | raw bytes => bytes
  | instr i => i.encode
  | label _ => Instr.nop.encode
  | branch b _ => b.lead ++ [0, 0]

def size (p : Piece) : Nat := p.blank.length

end Piece

def Piece.total : List Piece → Nat
  | [] => 0
  | p :: ps => p.size + Piece.total ps

theorem Piece.total_append (ps qs : List Piece) : total (ps ++ qs) = total ps + total qs := by
  induction ps with
  | nil => simp [total]
  | cons p ps ih => simp [total, ih, Nat.add_assoc]

theorem Piece.total_eq_length (ps : List Piece) : total ps = (ps.flatMap blank).length := by
  induction ps with
  | nil => rfl
  | cons p ps ih => rw [total, ih, List.flatMap_cons, List.length_append, size]

namespace Draft

def add (d : Draft) : Piece → Draft
  | .raw bytes => { d with code := d.code ++ bytes }
  | .instr i => { d with code := d.code ++ i.encode }
  | .label name =>
    { d with code := d.code ++ Instr.nop.encode, labels := (name, d.offset + 1) :: d.labels }
  | .branch b label =>
    { d with
      code := d.code ++ (b.lead ++ [0, 0])
      references := d.references ++ [⟨d.offset + b.lead.length, label⟩] }

def extend (d : Draft) (ps : List Piece) : Draft := ps.foldl add d

theorem extend_append (d : Draft) (ps qs : List Piece) :
    d.extend (ps ++ qs) = (d.extend ps).extend qs := List.foldl_append

theorem code_add (d : Draft) (p : Piece) : (d.add p).code = d.code ++ p.blank := by cases p <;> rfl

theorem offset_add (d : Draft) (p : Piece) : (d.add p).offset = d.offset + p.size := by
  rw [offset, code_add, List.length_append, offset, Piece.size]

theorem code_extend (d : Draft) (ps : List Piece) :
    (d.extend ps).code = d.code ++ ps.flatMap Piece.blank := by
  induction ps generalizing d with
  | nil => simp [extend]
  | cons p ps ih =>
    have h := ih (d.add p)
    rw [code_add, List.append_assoc] at h
    exact h

theorem offset_extend_empty (ps : List Piece) : (empty.extend ps).offset = Piece.total ps := by
  rw [offset, code_extend, Piece.total_eq_length]
  rfl

end Draft

/-- What a step leaves behind: pieces in their order, and the refusal that ended it, if one did. -/
structure Emission where
  pieces : List Piece
  refusal : Option Refusal
  deriving DecidableEq, Repr

namespace Emission

def nothing : Emission := ⟨[], none⟩
def one (p : Piece) : Emission := ⟨[p], none⟩
def instr (i : Instr) : Emission := one (.instr i)
def refused (refusal : Refusal) : Emission := ⟨[], some refusal⟩

def andThen (a b : Emission) : Emission :=
  match a.refusal with
  | none => ⟨a.pieces ++ b.pieces, b.refusal⟩
  | some _ => a

instance : Append Emission := ⟨andThen⟩

theorem pieces_append {a b : Emission} (h : a.refusal = none) :
    (a ++ b).pieces = a.pieces ++ b.pieces := by
  change (andThen a b).pieces = _
  rw [andThen, h]

theorem append_of_refused {a : Emission} {refusal : Refusal} (h : a.refusal = some refusal)
    (b : Emission) : a ++ b = a := by
  change andThen a b = a
  rw [andThen, h]

theorem refusal_append (a b : Emission) : (a ++ b).refusal = a.refusal.or b.refusal := by
  change (andThen a b).refusal = _
  cases h : a.refusal <;> simp [andThen, h]

theorem refusal_append_eq_none {a b : Emission} :
    (a ++ b).refusal = none ↔ a.refusal = none ∧ b.refusal = none := by
  rw [refusal_append, Option.or_eq_none_iff]

theorem append_assoc (a b c : Emission) : a ++ b ++ c = a ++ (b ++ c) := by
  cases ha : a.refusal with
  | some refusal => rw [append_of_refused ha, append_of_refused ha, append_of_refused ha]
  | none =>
    change andThen (andThen a b) c = andThen a (andThen b c)
    cases hb : b.refusal <;> simp [andThen, ha, hb]

def outcome (e : Emission) (d : Draft) : EStateM.Result Refusal Draft Unit :=
  match e.refusal with
  | none => .ok () (d.extend e.pieces)
  | some refusal => .error refusal (d.extend e.pieces)

end Emission

namespace Assembly

/-- Whatever the draft, the step adds the emission to it and nothing else. -/
def Emits (step : Assembly Unit) (e : Emission) : Prop := ∀ d, step d = e.outcome d

/-- What comes behind a step finds the draft with the emission, unless the step was refused. -/
theorem Emits.bind_apply {a : Assembly Unit} {b : Assembly α} {e : Emission} (ha : Emits a e)
    (d : Draft) :
    (do a; b) d = match e.refusal with
      | none => b (d.extend e.pieces)
      | some refusal => .error refusal (d.extend e.pieces) := by
  change EStateM.bind a (fun _ => b) d = _
  rw [EStateM.bind, ha d, Emission.outcome]
  cases e.refusal <;> rfl

theorem Emits.bind {a b : Assembly Unit} {e f : Emission} (ha : Emits a e) (hb : Emits b f) :
    Emits (do a; b) (e ++ f) := by
  intro d
  change _ = (Emission.andThen e f).outcome d
  rw [ha.bind_apply, Emission.andThen]
  cases h : e.refusal with
  | none => simp only [Emission.outcome, hb _, Draft.extend_append]
  | some refusal => simp only [Emission.outcome, h]

theorem emits_nothing : Emits (pure ()) .nothing := fun _ => rfl

theorem emits_raw (bytes : Bytes) : Emits (raw bytes) (.one (.raw bytes)) := fun _ => rfl

theorem emits_instr (i : Instr) : Emits (instr i) (.instr i) := fun _ => rfl

theorem emits_throw (refusal : Refusal) : Emits (throw refusal) (.refused refusal) := fun _ => rfl

end Assembly
end ChainScript
