import ChainScript.Proofs.Assembly.Convention

/-! What loads and calls set out to write: every instruction in its order, and what is wrong with it
where something is. Carrying out a plan writes the instructions up to the first one with a fault. -/
namespace ChainScript
open Machine

/-- An instruction to be written, unless there is something wrong with what it carries. -/
structure Step where
  instr : Instr
  fault : Option Refusal := none
  deriving DecidableEq, Repr

namespace Step

def instrs (plan : List Step) : List Instr := plan.map instr

def Sound (plan : List Step) : Prop := ∀ s ∈ plan, s.fault = none

/-- The plan comes to a fault with just the front of it done. -/
def Breaks (plan front : List Step) (refusal : Refusal) : Prop :=
  ∃ s back, plan = front ++ s :: back ∧ Sound front ∧ s.fault = some refusal

theorem sound_append {a b : List Step} : Sound (a ++ b) ↔ Sound a ∧ Sound b :=
  List.forall_mem_append

theorem sound_cons {s : Step} {plan : List Step} :
    Sound (s :: plan) ↔ s.fault = none ∧ Sound plan := List.forall_mem_cons

theorem Breaks.findSome? {plan front : List Step} {refusal : Refusal}
    (h : Breaks plan front refusal) : plan.findSome? fault = some refusal := by
  obtain ⟨s, back, rfl, hfront, hs⟩ := h
  rw [List.findSome?_append, List.findSome?_eq_none_iff.2 hfront, Option.none_or,
    List.findSome?_cons, hs]

theorem sound_or_breaks (plan : List Step) :
    Sound plan ∨ ∃ front refusal, Breaks plan front refusal := by
  induction plan with
  | nil => exact .inl fun s hs => absurd hs List.not_mem_nil
  | cons s plan ih =>
    cases hs : s.fault with
    | some refusal =>
      exact .inr ⟨[], refusal, s, plan, rfl, fun _ h => absurd h List.not_mem_nil, hs⟩
    | none =>
      obtain hsound | ⟨front, refusal, t, back, rfl, hfront, ht⟩ := ih
      · exact .inl (sound_cons.2 ⟨hs, hsound⟩)
      · exact .inr ⟨s :: front, refusal, t, back, rfl, sound_cons.2 ⟨hs, hfront⟩, ht⟩

end Step

namespace Emission
open Step

def follow : List Step → Emission
  | [] => nothing
  | s :: plan =>
    match s.fault with
    | none => instr s.instr ++ follow plan
    | some refusal => refused refusal

theorem follow_append (a b : List Step) : follow (a ++ b) = follow a ++ follow b := by
  induction a with
  | nil => rfl
  | cons s a ih =>
    rw [List.cons_append, follow, follow]
    cases s.fault with
    | none => rw [ih, append_assoc]
    | some refusal => rfl

theorem follow_sound {plan : List Step} (h : Sound plan) :
    follow plan = ⟨(instrs plan).map .instr, none⟩ := by
  induction plan with
  | nil => rfl
  | cons s plan ih =>
    obtain ⟨hs, hplan⟩ := sound_cons.1 h
    rw [follow, hs, ih hplan]
    rfl

theorem follow_breaks {plan front : List Step} {refusal : Refusal}
    (h : Breaks plan front refusal) :
    follow plan = ⟨(instrs front).map .instr, some refusal⟩ := by
  obtain ⟨s, back, rfl, hfront, hs⟩ := h
  rw [follow_append, follow_sound hfront, follow, hs]
  exact congrArg (Emission.mk · _) (List.append_nil _)

theorem refusal_follow (plan : List Step) : (follow plan).refusal = plan.findSome? fault := by
  obtain hsound | ⟨front, refusal, hbreaks⟩ := sound_or_breaks plan
  · rw [follow_sound hsound, List.findSome?_eq_none_iff.2 hsound]
  · rw [follow_breaks hbreaks, hbreaks.findSome?]

end Emission

namespace Draft

def write (d : Draft) (is : List Instr) : Draft :=
  { d with code := d.code ++ is.flatMap Instr.encode }

theorem extend_instrs (d : Draft) (is : List Instr) : d.extend (is.map .instr) = d.write is := by
  induction is generalizing d with
  | nil => rw [write, List.flatMap_nil, List.append_nil]; rfl
  | cons i is ih =>
    refine (ih (d.add (.instr i))).trans ?_
    rw [write, write, List.flatMap_cons, ← List.append_assoc]
    rfl

end Draft

namespace Value

def oversized? (length : Nat) : Option Refusal :=
  if length ≤ loadLimit then none else some (.oversized length)

/-- What keeps a value from being loaded into a register, the items of an array apart. -/
def fault? (r : Nat) : Value → Option Refusal
  | text s | number s =>
    match s.toList.find? fun c => 0xFF < c.toNat with
    | some c => some (.unencodable c)
    | none => oversized? s.length
  | bool _ | time _ | enum _ => none
  | bytes data => oversized? data.length
  | array _ =>
    if r + 2 < registerCount then none else some (.outOfRange (r + 2) (registerCount - 1))

mutual

/-- Loading a value takes one instruction, and loading an array first one that clears the register
and then those for the items. -/
def plan (r : Reg) : Value → List Step
  | array items => ⟨.cast r r .none, (array items).fault? r.toNat⟩ :: planItems r 0 items
  | v => [⟨.load r v.type (v.data?.getD []), v.fault? r.toNat⟩]

def planItems (r : Reg) (index : Nat) : List Value → List Step
  | [] => []
  | v :: vs =>
    plan (r + 1) v ++
      ⟨.load (r + 2) .string (key index), (text (toString index)).fault? (r + 2).toNat⟩ ::
      ⟨.put (r + 1) r (r + 2), none⟩ :: planItems r (index + 1) vs

end

def compile (r : Reg) (v : Value) : List Instr := Step.instrs (v.plan r)

def Plain : Value → Prop
  | array _ => False
  | _ => True

theorem plan_of_plain {v : Value} (h : v.Plain) (r : Reg) :
    v.plan r = [⟨.load r v.type (v.data?.getD []), v.fault? r.toNat⟩] := by
  cases v with
  | array items => exact h.elim
  | _ => rfl

/-- Whatever the value, its register is written first, unless the value itself cannot be loaded. -/
theorem exists_plan_eq_cons (r : Reg) (v : Value) :
    ∃ i rest, v.plan r = ⟨i, v.fault? r.toNat⟩ :: rest ∧ i.target? = some r := by
  cases v <;> exact ⟨_, _, rfl, rfl⟩

theorem plan_key (r : Reg) (index : Nat) :
    (text (toString index)).plan r =
      [⟨.load r .string (key index), (text (toString index)).fault? r.toNat⟩] := by
  rw [plan_of_plain (v := text (toString index)) trivial, data?, encode_toString]
  rfl

end Value

namespace Emission

theorem loadBytes_eq_follow (r : Reg) (data : Bytes) (ty : TypeTag) :
    loadBytes r data ty = follow [⟨.load r ty data, Value.oversized? data.length⟩] := by
  rw [loadBytes, follow, Value.oversized?]
  by_cases h : data.length ≤ loadLimit
  · rw [if_pos h, if_pos h]
    rfl
  · rw [if_neg h, if_neg h]

theorem loadText_eq_follow (r : Reg) (s : String) :
    loadText r s = follow ((Value.text s).plan r) := by
  have hbad : (fun c => !Text.SingleByte.fits c) = fun c : Char => decide (0xFF < c.toNat) := by
    funext c
    simp only [Text.SingleByte.fits, ← decide_not]
    exact decide_eq_decide.2 (by omega)
  rw [Value.plan_of_plain (v := .text s) trivial, loadText, Value.data?, Value.fault?]
  cases hfind : s.toList.find? fun c => decide (0xFF < c.toNat) with
  | some c =>
    have hs : Text.SingleByte.encode s = .error c := by
      rw [Text.SingleByte.encode, hbad, hfind]
    rw [hs]
    rfl
  | none =>
    have hs : Text.SingleByte.encode s = .ok (s.toList.map fun c => c.toNat.toUInt8) := by
      rw [Text.SingleByte.encode, hbad, hfind]
    rw [hs, ← Text.SingleByte.length_of_encode hs]
    exact loadBytes_eq_follow r _ .string

mutual

theorem load_eq_follow (r : Reg) (v : Value) : load r v = follow (v.plan r) := by
  cases v with
  | text s | number s => exact loadText_eq_follow r s
  | bool | time | bytes | enum => exact loadBytes_eq_follow r _ _
  | array items =>
    rw [load, Value.plan, follow, Value.fault?]
    by_cases hroom : r.toNat + 2 < registerCount
    · rw [if_pos hroom, if_pos hroom, loadItems_eq_follow r 0 items]
    · rw [if_neg hroom, if_neg hroom]

theorem loadItems_eq_follow (r : Reg) (index : Nat) (items : List Value) :
    loadItems r index items = follow (Value.planItems r index items) := by
  cases items with
  | nil => rfl
  | cons v vs =>
    have hput : instr (.put (r + 1) r (r + 2)) ++ loadItems r (index + 1) vs =
        follow (⟨.put (r + 1) r (r + 2), none⟩ :: Value.planItems r (index + 1) vs) := by
      rw [loadItems_eq_follow r (index + 1) vs]
      rfl
    rw [loadItems, Value.planItems, follow_append, load_eq_follow (r + 1) v, loadText_eq_follow,
      hput, ← follow_append, Value.plan_key]
    rfl

end

end Emission

namespace Invocation

def planArguments (args : List Value) : List Step :=
  args.reverse.flatMap fun v => v.plan 0 ++ [⟨.push 0, none⟩]

def plan : Invocation → List Step
  | contract name method args =>
    planArguments args ++ ((Value.text method).plan 0 ++ [⟨.push 0, none⟩]) ++
      ((Value.text name).plan 0 ++ [⟨.ctx 0 1, none⟩, ⟨.switch 1, none⟩])
  | interop method args =>
    planArguments args ++ ((Value.text method).plan 0 ++ [⟨.extcall 0, none⟩])

end Invocation

namespace Emission

theorem pushValues_eq_follow (vs : List Value) :
    pushValues vs = follow (vs.flatMap fun v => v.plan 0 ++ [⟨.push 0, none⟩]) := by
  induction vs with
  | nil => rfl
  | cons v vs ih =>
    rw [pushValues, pushValue, List.flatMap_cons, follow_append, follow_append, ih, load_eq_follow]
    rfl

theorem extcall_eq_follow (method : String) (r : Reg) :
    extcall method r = follow ((Value.text method).plan r ++ [⟨.extcall r, none⟩]) := by
  rw [extcall, follow_append, loadText_eq_follow]
  rfl

theorem invoke_eq_follow (i : Invocation) : invoke i = follow i.plan := by
  cases i with
  | contract name method args =>
    rw [invoke, Invocation.plan, pushValues_eq_follow, loadText_eq_follow, loadText_eq_follow,
      follow_append, follow_append, follow_append, follow_append, append_assoc, append_assoc]
    rfl
  | interop method args =>
    rw [invoke, Invocation.plan, pushValues_eq_follow, extcall_eq_follow, ← follow_append]
    rfl

end Emission

namespace Assembly
open Step

def Follows (step : Assembly Unit) (plan : List Step) : Prop := Emits step (.follow plan)

variable {step : Assembly Unit} {plan : List Step} {d d' : Draft}

theorem Follows.eq_ok (h : Follows step plan) (hsound : Sound plan) (d : Draft) :
    step d = .ok () (d.write (instrs plan)) := by
  rw [h d, Emission.follow_sound hsound, Emission.outcome, Draft.extend_instrs]

theorem Follows.eq_error (h : Follows step plan) {front : List Step} {refusal : Refusal}
    (hbreaks : Breaks plan front refusal) (d : Draft) :
    step d = .error refusal (d.write (instrs front)) := by
  rw [h d, Emission.follow_breaks hbreaks, Emission.outcome, Draft.extend_instrs]

theorem Follows.eq_ok_iff (h : Follows step plan) :
    step d = .ok () d' ↔ Sound plan ∧ d' = d.write (instrs plan) := by
  obtain hsound | ⟨front, refusal, hbreaks⟩ := sound_or_breaks plan
  · rw [h.eq_ok hsound]
    simp [hsound, eq_comm]
  · rw [h.eq_error hbreaks]
    simp only [reduceCtorEq, false_iff, not_and]
    obtain ⟨s, back, rfl, -, hs⟩ := hbreaks
    intro hsound
    rw [hsound s (by simp)] at hs
    cases hs

theorem Follows.eq_error_iff (h : Follows step plan) {refusal : Refusal} :
    step d = .error refusal d' ↔
      ∃ front, Breaks plan front refusal ∧ d' = d.write (instrs front) := by
  constructor
  · intro hstep
    obtain hsound | ⟨front, other, hbreaks⟩ := sound_or_breaks plan
    · rw [h.eq_ok hsound] at hstep
      cases hstep
    · rw [h.eq_error hbreaks] at hstep
      cases hstep
      exact ⟨front, hbreaks, rfl⟩
  · rintro ⟨front, hbreaks, rfl⟩
    exact h.eq_error hbreaks d

theorem follows_load (r : Reg) (v : Value) : Follows (load r v) (v.plan r) := by
  rw [Follows, ← Emission.load_eq_follow]
  exact emits_load r v

theorem follows_arguments (args : List Value) :
    Follows (arguments args) (Invocation.planArguments args) := by
  rw [Follows, Invocation.planArguments, ← Emission.pushValues_eq_follow]
  exact emits_pushValues args.reverse

theorem follows_invoke (i : Invocation) : Follows (invoke i) i.plan := by
  rw [Follows, ← Emission.invoke_eq_follow]
  exact emits_invoke i

end Assembly
end ChainScript
