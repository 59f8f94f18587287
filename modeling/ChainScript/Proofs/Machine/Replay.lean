import ChainScript.Machine.Limits
import ChainScript.Machine.Operation

/-! A machine that follows the instructions by which values are put together and pushed. It stops
where one of them names a register that the machine does not have, or puts into what is no struct.
Any other instruction leaves registers and stack alone. -/
namespace ChainScript.Machine

/-- What a register or a place on the stack holds: data of a type, or fields under their keys. -/
inductive Cell where
  | datum (ty : TypeTag) (data : Bytes)
  | struct (fields : List (Bytes × Cell))
  deriving Repr, BEq

namespace Cell

def store (key : Bytes) (value : Cell) : List (Bytes × Cell) → List (Bytes × Cell)
  | [] => [(key, value)]
  | field :: fields =>
    if field.1 = key then (key, value) :: fields else field :: store key value fields

theorem store_of_fresh {key : Bytes} {fields : List (Bytes × Cell)}
    (h : ∀ field ∈ fields, field.1 ≠ key) (value : Cell) :
    store key value fields = fields ++ [(key, value)] := by
  induction fields with
  | nil => rfl
  | cons field fields ih =>
    have hrest := ih fun field' h' => h field' (List.mem_cons_of_mem field h')
    rw [store, if_neg (h field List.mem_cons_self), hrest, List.cons_append]

def put? (value target key : Cell) : Option Cell :=
  match target, key with
  | .struct fields, .datum _ data => some (.struct (store data value fields))
  | _, _ => none

end Cell

structure State where
  regs : Reg → Cell
  /-- The top comes first. -/
  stack : List Cell

namespace State

def read? (s : State) (r : Reg) : Option Cell :=
  if r.toNat < registerCount then some (s.regs r) else none

def set (s : State) (r : Reg) (c : Cell) : State :=
  { s with regs := fun q => if q = r then c else s.regs q }

def write? (s : State) (r : Reg) (c : Cell) : Option State :=
  if r.toNat < registerCount then some (s.set r c) else none

def push (s : State) (c : Cell) : State := { s with stack := c :: s.stack }

@[simp] theorem regs_set_self (s : State) (r : Reg) (c : Cell) : (s.set r c).regs r = c :=
  if_pos rfl

theorem regs_set_of_ne (s : State) {q r : Reg} (h : q ≠ r) (c : Cell) :
    (s.set r c).regs q = s.regs q := if_neg h

@[simp] theorem stack_set (s : State) (r : Reg) (c : Cell) : (s.set r c).stack = s.stack := rfl

end State

def Instr.step (s : State) : Instr → Option State
  | .load dst ty data => s.write? dst (.datum ty data)
  | .cast src dst ty =>
    if src = dst ∧ ty = .none then s.write? dst (.struct []) else some s
  | .triple .put src dst key => do
    s.write? dst (← Cell.put? (← s.read? src) (← s.read? dst) (← s.read? key))
  | .single .push src => do return s.push (← s.read? src)
  | _ => some s

def replay (is : List Instr) (s : State) : Option State := is.foldlM Instr.step s

namespace Instr
variable {s : State}

theorem step_load {dst : Reg} (h : dst.toNat < registerCount) (ty : TypeTag) (data : Bytes) :
    (load dst ty data).step s = some (s.set dst (.datum ty data)) := if_pos h

theorem step_clear {r : Reg} (h : r.toNat < registerCount) :
    (cast r r .none).step s = some (s.set r (.struct [])) := by
  rw [step, if_pos ⟨rfl, rfl⟩, State.write?, if_pos h]

theorem step_push {r : Reg} (h : r.toNat < registerCount) :
    (push r).step s = some (s.push (s.regs r)) := by
  change (s.read? r).bind (fun c => some (s.push c)) = _
  rw [State.read?, if_pos h, Option.bind_some]

theorem step_put {src dst key : Reg} {fields : List (Bytes × Cell)} {ty : TypeTag} {data : Bytes}
    (hsrc : src.toNat < registerCount) (hdst : dst.toNat < registerCount)
    (hkey : key.toNat < registerCount) (hstruct : s.regs dst = .struct fields)
    (hdata : s.regs key = .datum ty data) :
    (put src dst key).step s =
      some (s.set dst (.struct (Cell.store data (s.regs src) fields))) := by
  have hreads : s.read? src = some (s.regs src) ∧ s.read? dst = some (.struct fields) ∧
      s.read? key = some (.datum ty data) := by
    refine ⟨if_pos hsrc, ?_, ?_⟩
    · rw [← hstruct]
      exact if_pos hdst
    · rw [← hdata]
      exact if_pos hkey
  obtain ⟨hvalue, htarget, hname⟩ := hreads
  change (s.read? src).bind (fun v => (s.read? dst).bind fun t => (s.read? key).bind fun k =>
    (Cell.put? v t k).bind fun c => s.write? dst c) = _
  rw [hvalue, htarget, hname]
  exact if_pos hdst

end Instr

def Instr.target? : Instr → Option Reg
  | .load dst .. => some dst
  | .cast _ dst _ => some dst
  | .triple .put _ dst _ => some dst
  | _ => none

def Writes (is : List Instr) (q : Reg) : Prop := ∃ i ∈ is, i.target? = some q

section
variable {is js : List Instr} {i : Instr} {q r : Reg} {s s' : State}

theorem writes_nil : ¬ Writes [] q := fun ⟨_, hi, _⟩ => List.not_mem_nil hi

theorem writes_cons : Writes (i :: is) q ↔ i.target? = some q ∨ Writes is q := by
  simp only [Writes, List.mem_cons, or_and_right, exists_or, exists_eq_left]

theorem writes_append : Writes (is ++ js) q ↔ Writes is q ∨ Writes js q := by
  simp only [Writes, List.mem_append, or_and_right, exists_or]

theorem State.regs_of_write {c : Cell} (h : s.write? r c = some s') (hq : some r ≠ some q) :
    s'.regs q = s.regs q := by
  rw [write?] at h
  split at h
  · cases h
    exact s.regs_set_of_ne (fun he => hq (congrArg some he.symm)) c
  · cases h

theorem Instr.regs_of_step (h : i.step s = some s') (hq : i.target? ≠ some q) :
    s'.regs q = s.regs q := by
  unfold Instr.step at h
  split at h
  next => exact State.regs_of_write h hq
  next =>
    split at h
    · exact State.regs_of_write h hq
    · cases h
      rfl
  next =>
    obtain ⟨value, -, h⟩ := Option.bind_eq_some_iff.1 h
    obtain ⟨struct, -, h⟩ := Option.bind_eq_some_iff.1 h
    obtain ⟨key, -, h⟩ := Option.bind_eq_some_iff.1 h
    obtain ⟨c, -, h⟩ := Option.bind_eq_some_iff.1 h
    exact State.regs_of_write h hq
  next =>
    obtain ⟨c, -, h⟩ := Option.bind_eq_some_iff.1 h
    cases h
    rfl
  next =>
    cases h
    rfl

/-- What no instruction writes is there after all of them. -/
theorem regs_of_replay (h : replay is s = some s') (hq : ¬ Writes is q) :
    s'.regs q = s.regs q := by
  induction is generalizing s with
  | nil =>
    cases h
    rfl
  | cons i is ih =>
    obtain ⟨next, hnext, hrest⟩ := Option.bind_eq_some_iff.1 h
    rw [writes_cons, not_or] at hq
    rw [ih hrest hq.2, Instr.regs_of_step hnext hq.1]

end
end ChainScript.Machine
