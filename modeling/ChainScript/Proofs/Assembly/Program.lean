import ChainScript.Assembly.Statement
import ChainScript.Proofs.Assembly.Plan

/-! What programs of mnemonic statements are assembled to. Every statement has a list of its
instructions, and the listing of the script is that of all statements, with each label at its
address, and a `ret` behind it. Statements that cannot be written decide before labels do. -/
namespace ChainScript
open Machine

namespace Statement

def loads : Statement → List (Reg × Value)
  | load r v => [(r, v)]
  | extcall method => [(0, .text method)]
  | interop method args => (args.reverse ++ [Value.text method]).map (Prod.mk 0)
  | contract name method args =>
    (args.reverse ++ [Value.text method] ++ [Value.text name]).map (Prod.mk 0)
  | _ => []

/-- What is wrong with a statement, whatever labels there are: the first value that it cannot load,
or a number of registers that no call can have. -/
def fault? : Statement → Option Refusal
  | call _ count =>
    if 1 ≤ count.toNat ∧ count.toNat ≤ registerCount then none else some (.registerCount count)
  | s => s.loads.findSome? fun l => (l.2.plan l.1).findSome? Step.fault

def pushes (args : List Value) : List Instr :=
  args.reverse.flatMap fun v => v.compile 0 ++ [.single .push 0]

def instrs (address : String → UInt16) : Statement → List Instr
  | nop => [.nop]
  | ret => [.ret]
  | push r => [.single .push r]
  | pop r => [.single .pop r]
  | mov src dst => [.pair .mov src dst]
  | cpy src dst => [.pair .cpy src dst]
  | swap a b => [.pair .swap a b]
  | inc r => [.single .inc r]
  | dec r => [.single .dec r]
  | this dst => [.single .this dst]
  | eq a b dst => [.triple .eq a b dst]
  | add a b dst => [.triple .add a b dst]
  | sub a b dst => [.triple .sub a b dst]
  | put src dst key => [.triple .put src dst key]
  | load r v => v.compile r
  | label _ => [.nop]
  | jmp name => [.jmp (address name)]
  | jmpif r name => [.jmpif r (address name)]
  | jmpnot r name => [.jmpnot r (address name)]
  | call name count => [.call count (address name)]
  | ctx src dst => [.pair .ctx src dst]
  | switch r => [.single .switch r]
  | extcall method => (Value.text method).compile 0 ++ [.single .extcall 0]
  | interop method args =>
    pushes args ++ ((Value.text method).compile 0 ++ [.single .extcall 0])
  | contract name method args =>
    pushes args ++ ((Value.text method).compile 0 ++ [.single .push 0]) ++
      ((Value.text name).compile 0 ++ [.pair .ctx 0 1, .single .switch 1])

def size (s : Statement) : Nat := ((s.instrs fun _ => 0).flatMap Instr.encode).length

def target? : Statement → Option String
  | jmp name | jmpif _ name | jmpnot _ name | call name _ => some name
  | _ => none

/-- Where a name is placed by statements that start at an offset: behind the `nop` of the last
statement that places it. -/
def addressFrom? (name : String) (offset : Nat) : List Statement → Option Nat
  | [] => none
  | s :: program =>
    match s with
    | .label other =>
      (addressFrom? name (offset + 1) program).or (if other = name then some (offset + 1) else none)
    | s => addressFrom? name (offset + s.size) program

def address? (program : List Statement) (name : String) : Option Nat := addressFrom? name 0 program

def address (program : List Statement) (name : String) : UInt16 :=
  ((address? program name).getD 0).toUInt16

def unresolved? (program : List Statement) (s : Statement) : Option Refusal :=
  s.target?.bind (TwoPass.unresolved? (address? program))

def listing (program : List Statement) : List Instr :=
  program.flatMap (instrs (address program)) ++ [.ret]

def toCall : Statement → Call
  | nop => .instr .nop
  | ret => .instr .ret
  | push r => .instr (.push r)
  | pop r => .instr (.pop r)
  | mov src dst => .instr (.mov src dst)
  | cpy src dst => .instr (.cpy src dst)
  | swap a b => .instr (.swap a b)
  | inc r => .instr (.inc r)
  | dec r => .instr (.dec r)
  | this dst => .instr (.this dst)
  | eq a b dst => .instr (.eq a b dst)
  | add a b dst => .instr (.arith .add a b dst)
  | sub a b dst => .instr (.arith .sub a b dst)
  | put src dst key => .instr (.put src dst key)
  | load r v => .load r v
  | label name => .label name
  | jmp name => .jump .jmp name 0
  | jmpif r name => .conditionalJump .jmpif r name
  | jmpnot r name => .conditionalJump .jmpnot r name
  | call name count => .call name count
  | ctx src dst => .instr (.ctx src dst)
  | switch r => .instr (.switch r)
  | extcall method => .extcall method 0
  | interop method args => .invoke (.interop method args)
  | contract name method args => .invoke (.contract name method args)

theorem perform_toCall (s : Statement) : s.toCall.perform = s.perform := by cases s <;> rfl

theorem adds_toCall (s : Statement) : s.toCall.Adds := by cases s <;> trivial

theorem structured_toCall (s : Statement) : s.toCall.Structured := by
  cases s with
  | load | label | jmp | jmpif | jmpnot | call | extcall | interop | contract => trivial
  | _ => exact Instr.wellFormed_of_bare

theorem emits_perform (s : Statement) : Assembly.Emits s.perform s.toCall.emission := by
  rw [← perform_toCall]
  exact Call.emits_perform s.adds_toCall

def plan? : Statement → Option (List Step)
  | load r v => some (v.plan r)
  | extcall method => some ((Value.text method).plan 0 ++ [⟨.extcall 0, none⟩])
  | interop method args => some (Invocation.interop method args).plan
  | contract name method args => some (Invocation.contract name method args).plan
  | _ => none

def pieces : Statement → List Piece
  | label name => [.label name]
  | jmp name => [.branch .jmp name]
  | jmpif r name => [.branch (.jmpif r) name]
  | jmpnot r name => [.branch (.jmpnot r) name]
  | call name count => [.branch (.call count) name]
  | s => (s.instrs fun _ => 0).map .instr

def written (program : List Statement) : List Piece := program.flatMap pieces ++ [.instr .ret]

theorem findSome?_flatMap {α β γ : Type} (f : β → Option γ) (g : α → List β) (list : List α) :
    (list.flatMap g).findSome? f = list.findSome? fun a => (g a).findSome? f := by
  induction list with
  | nil => rfl
  | cons a list ih =>
    rw [List.flatMap_cons, List.findSome?_append, ih, List.findSome?_cons]
    cases (g a).findSome? f <;> rfl

section Planned
variable {s : Statement} {plan : List Step}

theorem emission_of_plan? (h : s.plan? = some plan) : s.toCall.emission = .follow plan := by
  cases s with
  | load r v =>
    cases h
    exact Emission.load_eq_follow r v
  | extcall method =>
    cases h
    exact Emission.extcall_eq_follow method 0
  | interop method args =>
    cases h
    exact Emission.invoke_eq_follow (.interop method args)
  | contract name method args =>
    cases h
    exact Emission.invoke_eq_follow (.contract name method args)
  | _ => cases h

/-- Pushes and calls have no fault, so that of the plan is that of the first bad value. -/
theorem fault?_of_plan? (h : s.plan? = some plan) : s.fault? = plan.findSome? Step.fault := by
  cases s with
  | load r v =>
    cases h
    exact List.findSome?_singleton
  | extcall method =>
    cases h
    simp [fault?, loads, List.findSome?_append]
  | interop | contract =>
    cases h
    simp only [fault?, loads, List.findSome?_map, Invocation.plan, Invocation.planArguments,
      List.findSome?_append, findSome?_flatMap, Function.comp_def]
    simp
  | _ => cases h

theorem pieces_of_plan? (h : s.plan? = some plan) :
    s.pieces = (Step.instrs plan).map .instr := by
  cases s with
  | load r v =>
    cases h
    rfl
  | extcall method =>
    cases h
    simp [pieces, instrs, Value.compile, Step.instrs]
  | interop | contract =>
    cases h
    simp [pieces, instrs, pushes, Value.compile, Step.instrs, Invocation.plan,
      Invocation.planArguments, List.map_flatMap]
  | _ => cases h

end Planned

theorem refusal_emission (s : Statement) : s.toCall.emission.refusal = s.fault? := by
  cases hplan : s.plan? with
  | some plan =>
    rw [emission_of_plan? hplan, fault?_of_plan? hplan, Emission.refusal_follow]
  | none =>
    cases s with
    | load | extcall | interop | contract => cases hplan
    | call name count =>
      change (Emission.call name count).refusal = _
      rw [Emission.call, fault?]
      split <;> rfl
    | _ => rfl

theorem emission_eq {s : Statement} (h : s.fault? = none) :
    s.toCall.emission = ⟨s.pieces, none⟩ := by
  cases hplan : s.plan? with
  | some plan =>
    rw [fault?_of_plan? hplan, List.findSome?_eq_none_iff] at h
    rw [emission_of_plan? hplan, pieces_of_plan? hplan, Emission.follow_sound h]
  | none =>
    cases s with
    | load | extcall | interop | contract => cases hplan
    | call name count =>
      change Emission.call name count = _
      rw [fault?] at h
      rw [Emission.call]
      split at h
      · rename_i hcount
        rw [if_pos hcount]
        rfl
      · cases h
    | _ => rfl

theorem wellFormed_pieces {s : Statement} (h : s.fault? = none) : ∀ p ∈ s.pieces, p.WellFormed := by
  have hwell := s.structured_toCall.wellFormed
  rw [emission_eq h] at hwell
  exact hwell

theorem flatMap_blank (s : Statement) :
    s.pieces.flatMap Piece.blank = (s.instrs fun _ => 0).flatMap Instr.encode := by
  cases s with
  | label => rfl
  | jmp | jmpif | jmpnot | call =>
    simp [pieces, instrs, Piece.blank, Branch.lead, Instr.encode, Instr.opcode, Instr.operands,
      Wire.leBytes]
  | _ => exact List.flatMap_map Piece.instr Piece.blank _

theorem total_pieces (s : Statement) : Piece.total s.pieces = s.size := by
  rw [Piece.total_eq_length, flatMap_blank, size]

theorem length_instrs (address : String → UInt16) (s : Statement) :
    ((s.instrs address).flatMap Instr.encode).length = s.size := by
  cases s with
  | jmp | jmpif | jmpnot | call =>
    simp [size, instrs, Instr.encode, Instr.operands]
  | _ => rfl

/-- A statement places the label that it is, and none else. -/
theorem mem_pieces {s : Statement} {name : String} :
    Piece.label name ∈ s.pieces ↔ s = label name := by
  cases s with
  | label other => simp [pieces, eq_comm]
  | _ => simp [pieces]

theorem findSome?_pieces (symbols : String → Option Nat) (s : Statement) :
    s.pieces.findSome? (TwoPass.fault? symbols) = s.target?.bind (TwoPass.unresolved? symbols) := by
  cases s with
  | label => rfl
  | jmp | jmpif | jmpnot | call => exact List.findSome?_singleton
  | _ => simp [pieces, target?, TwoPass.fault?]

/-- The pieces are the instructions of the statement in a draft where its label has its address. -/
theorem resolved_pieces {d : Draft} {address : String → UInt16} {s : Statement}
    (h : ∀ name, s.target? = some name → d.target name = .ok (address name)) :
    Piece.Resolved d s.pieces (s.instrs address) := by
  rw [Piece.Resolved]
  cases s with
  | label name => rfl
  | jmp name | jmpif r name | jmpnot r name | call name count =>
    simp [pieces, instrs, Piece.instr?, Branch.instr, h name rfl]
  | _ => simp [pieces, instrs, Piece.instr?, Function.comp_def]

/-- What the statements of a program add, up to the first with which something is wrong. -/
def emission : List Statement → Emission
  | [] => .nothing
  | s :: program => s.toCall.emission ++ emission program

theorem emits_program (program : List Statement) :
    Assembly.Emits (program.forM perform) (emission program) := by
  induction program with
  | nil => exact Assembly.emits_nothing
  | cons s program ih => exact s.emits_perform.bind ih

variable {program : List Statement}

theorem refusal_program (program : List Statement) :
    (emission program).refusal = program.findSome? fault? := by
  induction program with
  | nil => rfl
  | cons s program ih =>
    rw [emission, Emission.refusal_append, refusal_emission, ih, List.findSome?_cons]
    cases s.fault? <;> rfl

theorem pieces_program (h : program.findSome? fault? = none) :
    (emission program).pieces = program.flatMap pieces := by
  induction program with
  | nil => rfl
  | cons s program ih =>
    rw [List.findSome?_eq_none_iff, List.forall_mem_cons, ← List.findSome?_eq_none_iff] at h
    obtain ⟨hs, hprogram⟩ := h
    have hrefusal : s.toCall.emission.refusal = none := by rw [refusal_emission, hs]
    rw [emission, Emission.pieces_append hrefusal, ih hprogram, emission_eq hs, List.flatMap_cons]

/-- Statements come first: only a program of which all can be written is assembled in two passes. -/
theorem assemble_eq (program : List Statement) :
    assemble program = match program.findSome? fault? with
      | some refusal => .error refusal
      | none => TwoPass.assemble (written program) := by
  rw [assemble, (emits_program program).bind_apply, refusal_program]
  cases hfault : program.findSome? fault? with
  | some refusal => rfl
  | none =>
    have hd : (Draft.empty.extend (emission program).pieces).add (.instr .ret) =
        Draft.empty.extend (written program) := by
      rw [pieces_program hfault, written, Draft.extend_append]
      rfl
    simp only [Assembly.finish_apply, hd, Draft.link_extend]
    cases TwoPass.assemble (written program) <;> rfl

theorem assemble_of_sound (h : program.findSome? fault? = none) :
    assemble program = TwoPass.assemble (written program) := by
  rw [assemble_eq, h]

/-- Where the pieces of a program place a name that was bound before. -/
theorem bind_program (symbols : String → Option Nat) (offset : Nat) (program : List Statement)
    (name : String) :
    TwoPass.bind symbols offset (program.flatMap pieces) name =
      (addressFrom? name offset program).or (symbols name) := by
  induction program generalizing symbols offset with
  | nil => rfl
  | cons s program ih =>
    rw [List.flatMap_cons, TwoPass.bind_append, total_pieces, ih]
    cases s with
    | label other =>
      -- What is placed later counts, then this label, then what was bound before.
      change (addressFrom? name (offset + 1) program).or
          (if name = other then some (offset + 1) else symbols name) =
        ((addressFrom? name (offset + 1) program).or
          (if other = name then some (offset + 1) else none)).or (symbols name)
      by_cases hname : other = name
      · rw [if_pos hname, if_pos hname.symm, Option.or_assoc]
        rfl
      · rw [if_neg hname, if_neg (Ne.symm hname), Option.or_none]
    | _ =>
      rw [TwoPass.bind_of_notMem (mt mem_pieces.1 (by simp))]
      rfl

theorem symbols_program (program : List Statement) :
    TwoPass.symbols (written program) = address? program := by
  funext name
  rw [TwoPass.symbols, written, TwoPass.bind_append]
  exact (bind_program _ 0 program name).trans Option.or_none

theorem findSome?_program (program : List Statement) :
    (written program).findSome? (TwoPass.fault? (address? program)) =
      program.findSome? (unresolved? program) := by
  have hlabels : (fun s => s.pieces.findSome? (TwoPass.fault? (address? program))) =
      unresolved? program := funext fun s => findSome?_pieces _ s
  rw [written, List.findSome?_append, findSome?_flatMap, hlabels]
  exact Option.or_none

/-- A label that a statement refers to has the address that the program says. -/
theorem target_program {s : Statement} {name : String} (h : unresolved? program s = none)
    (hname : s.target? = some name) :
    (Draft.empty.extend (written program)).target name = .ok (address program name) := by
  rw [unresolved?, hname] at h
  have hnone : TwoPass.unresolved? (address? program) name = none := h
  rw [Draft.target_eq, Draft.labelOffset?_extend_empty, symbols_program, hnone]
  rfl

theorem resolved_program {d : Draft} {address : String → UInt16}
    (h : ∀ s ∈ program, ∀ name, s.target? = some name → d.target name = .ok (address name)) :
    Piece.Resolved d (written program) (program.flatMap (instrs address) ++ [.ret]) := by
  induction program with
  | nil => rfl
  | cons s program ih =>
    rw [List.forall_mem_cons] at h
    obtain ⟨hs, hprogram⟩ := h
    rw [written, List.flatMap_cons, List.flatMap_cons, List.append_assoc, List.append_assoc]
    exact (resolved_pieces hs).append (ih hprogram)

theorem wellFormed_written (h : program.findSome? fault? = none) :
    ∀ p ∈ written program, p.WellFormed := by
  rw [List.findSome?_eq_none_iff] at h
  intro p hp
  rcases List.mem_append.1 hp with hp | hp
  · obtain ⟨s, hs, hp⟩ := List.mem_flatMap.1 hp
    exact wellFormed_pieces (h s hs) p hp
  · obtain rfl := List.mem_singleton.1 hp
    exact Instr.wellFormed_of_bare

/-- Once labels are known the script consists of the listed instructions. -/
theorem assemble_eq_ok (hfault : program.findSome? fault? = none)
    (hlabels : program.findSome? (unresolved? program) = none) :
    assemble program = .ok ((listing program).flatMap Instr.encode) ∧
      ∀ i ∈ listing program, i.WellFormed := by
  have hall : Piece.Resolved (Draft.empty.extend (written program)) (written program)
      (listing program) :=
    resolved_program fun s hs name =>
      target_program (List.findSome?_eq_none_iff.1 hlabels s hs)
  have hcode : TwoPass.assemble (written program) =
      .ok ((written program).flatMap (TwoPass.image (address? program))) := by
    rw [TwoPass.assemble, symbols_program, findSome?_program, hlabels]
  -- The pieces are instructions that can be decoded, and no others than the listed ones.
  obtain ⟨is, his, hwell, hbytes⟩ :=
    Piece.exists_resolved_of_assemble (wellFormed_written hfault) hcode
  obtain rfl := hall.unique his
  exact ⟨by rw [assemble_of_sound hfault, hcode, hbytes], hwell⟩

theorem mem_written {name : String} :
    Piece.label name ∈ written program ↔ label name ∈ program := by
  simp [written, List.mem_flatMap, mem_pieces]

theorem total_flatMap (address : String → UInt16) (program : List Statement) :
    Piece.total (program.flatMap pieces) =
      ((program.flatMap (instrs address)).flatMap Instr.encode).length := by
  induction program with
  | nil => rfl
  | cons s program ih =>
    rw [List.flatMap_cons, Piece.total_append, total_pieces, ih, List.flatMap_cons,
      List.flatMap_append, List.length_append, length_instrs]

theorem address?_of_last {before after : List Statement} {name : String}
    (h : label name ∉ after) (addresses : String → UInt16) :
    address? (before ++ label name :: after) name =
      some (((before.flatMap (instrs addresses)).flatMap Instr.encode).length + 1) := by
  have hsplit : written (before ++ label name :: after) =
      before.flatMap pieces ++ .label name :: written after := by
    rw [written, List.flatMap_append, List.append_assoc]
    rfl
  rw [← symbols_program, hsplit, TwoPass.symbols_of_last (mt mem_written.1 h), total_flatMap]

/-- A name has the offset behind the `nop` of the last statement that places it. -/
theorem address?_eq_some_iff {name : String} {offset : Nat} (addresses : String → UInt16) :
    address? program name = some offset ↔
      ∃ before after, program = before ++ label name :: after ∧ label name ∉ after ∧
        offset = ((before.flatMap (instrs addresses)).flatMap Instr.encode).length + 1 := by
  constructor
  · intro h
    have hmem : label name ∈ program := by
      rw [← mem_written]
      by_contra hnone
      rw [← symbols_program, TwoPass.symbols_eq_none_iff.2 hnone] at h
      cases h
    obtain ⟨before, after, rfl, hnew⟩ := TwoPass.exists_last hmem
    rw [address?_of_last hnew addresses] at h
    exact ⟨before, after, rfl, hnew, (Option.some.inj h).symm⟩
  · rintro ⟨before, after, rfl, hnew, rfl⟩
    exact address?_of_last hnew addresses

theorem address?_of_target? {s : Statement} {name : String} (h : unresolved? program s = none)
    (hname : s.target? = some name) :
    address? program name = some (address program name).toNat := by
  rw [← symbols_program, ← Draft.labelOffset?_extend_empty]
  exact Piece.labelOffset?_of_target (target_program h hname)

/-- Assembling a program gives what is wrong with its first bad statement, whatever its labels are,
and else what is wrong with the first label that is referred to and is missing or too far. If
nothing is wrong, it gives a script that is disassembled into the instructions of all statements in
their order and a `ret`. A label stands there for the offset behind the `nop` of the last statement
that places it. -/
theorem assemble_program (program : List Statement) :
    (∀ refusal, program.findSome? fault? = some refusal → assemble program = .error refusal) ∧
    (program.findSome? fault? = none → ∀ refusal,
      program.findSome? (unresolved? program) = some refusal →
        assemble program = .error refusal) ∧
    (program.findSome? fault? = none → program.findSome? (unresolved? program) = none →
      ∃ code, assemble program = .ok code ∧
        disassemble code = .ok (Instr.place 0 (listing program)) ∧
        code = (listing program).flatMap Instr.encode ∧
        ∀ s ∈ program, ∀ name, s.target? = some name →
          address? program name = some (address program name).toNat) ∧
    ∀ name offset, address? program name = some offset ↔
      ∃ before after, program = before ++ label name :: after ∧ label name ∉ after ∧
        offset =
          ((before.flatMap (instrs (address program))).flatMap Instr.encode).length + 1 := by
  refine ⟨fun refusal hfault => ?_, fun hfault refusal hlabels => ?_, fun hfault hlabels => ?_,
    fun name offset => address?_eq_some_iff (address program)⟩
  · rw [assemble_eq, hfault]
  · rw [assemble_of_sound hfault, TwoPass.assemble, symbols_program, findSome?_program, hlabels]
  · obtain ⟨hcode, hwell⟩ := assemble_eq_ok hfault hlabels
    exact ⟨_, hcode, disassemble_encode hwell, rfl, fun s hs name =>
      address?_of_target? (List.findSome?_eq_none_iff.1 hlabels s hs)⟩

/-- A call without registers is worse than a label that is missing in front of it. -/
example : assemble [.jmp "there", .call "here" 0, .label "here"] = .error (.registerCount 0) := by
  decide

def detour : List Statement :=
  [.jmp "end", .label "end", .load 1 (.bool true), .label "end", .call "end" 4, .extcall "Log"]

theorem assemble_detour :
    detour.findSome? fault? = none ∧ detour.findSome? (unresolved? detour) = none ∧
    ∃ code, assemble detour = .ok code ∧
      disassemble code = .ok [(0, .jmp 10), (3, .nop), (4, .load 1 .bool [1]), (9, .nop),
        (10, .call 4 10), (14, .load 0 .string [76, 111, 103]), (21, .single .extcall 0),
        (23, .ret)] := by
  have hfault : detour.findSome? fault? = none := by decide
  have hlabels : detour.findSome? (unresolved? detour) = none := by decide
  obtain ⟨-, -, hok, -⟩ := assemble_program detour
  obtain ⟨code, hcode, hlisting, -⟩ := hok hfault hlabels
  exact ⟨hfault, hlabels, code, hcode, hlisting⟩

end Statement
end ChainScript
