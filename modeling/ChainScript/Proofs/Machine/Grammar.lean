import ChainScript.Proofs.Machine.Disassembly
import ChainScript.Proofs.Wire.Outcome

/-! The code that can be disassembled. It is instructions one after the other, their VarInts in any
form; other code stops at its first place that no instruction starts at, and the fault says whether
data is missing there or a byte names no operation or no type. -/
namespace ChainScript.Machine
open Wire Wire.Decoder

namespace Opcode

theorem ofByte?_eq_none {b : UInt8} (h : ofByte? b = none) : 48 < b.toNat :=
  List.getElem?_eq_none_iff.1 h

/-- The layouts that belong to one or two operations. -/
theorem of_layout (op : Opcode) :
    (op.layout = .none → op = nop ∨ op = ret) ∧ (op.layout = .call → op = call) ∧
      (op.layout = .jump → op = jmp) ∧ (op.layout = .branch → op = jmpif ∨ op = jmpnot) ∧
      (op.layout = .data → op = throw) ∧ (op.layout = .load → op = load) ∧
      (op.layout = .cast → op = cast) ∧ (op.layout = .length → op = left ∨ op = right) ∧
      (op.layout = .range → op = substr) := by
  cases op <;> decide

end Opcode

namespace TypeTag

theorem ofByte?_eq_none {b : UInt8} (h : ofByte? b = .none) : 8 < b.toNat :=
  List.getElem?_eq_none_iff.1 h

theorem byte_of_ofByte? {b : UInt8} {ty : TypeTag} (h : ofByte? b = some ty) : ty.byte = b :=
  toUInt8_of_table (by decide : all.map TypeTag.ctorIdx = List.range all.length) h

end TypeTag

/-- At the front of the data a byte stands where an instruction has its operation or its type, and
it names none. -/
inductive BadTag : Bytes → UInt8 → Prop where
  | opcode {tag rest} : 48 < tag.toNat → BadTag (tag :: rest) tag
  | load {dst tag rest} : 8 < tag.toNat → BadTag (Opcode.load.byte :: dst :: tag :: rest) tag
  | cast {src dst tag rest} :
      8 < tag.toNat → BadTag (Opcode.cast.byte :: src :: dst :: tag :: rest) tag

def Misread (data : Bytes) (fault : Fault) : Prop :=
  ∃ tag, fault = .unknownTag tag ∧ BadTag data tag

namespace Decode

theorem follows_opcode : Follows opcode (fun op bytes => bytes = [op.byte]) Misread := by
  refine follows_tag Opcode.nop.byte .nop rfl fun b => ?_
  split
  next op h => exact .inl ⟨op, rfl, by rw [Opcode.byte_of_ofByte? h]⟩
  next h => exact .inr ⟨rfl, fun _ => ⟨b, rfl, .opcode (Opcode.ofByte?_eq_none h)⟩⟩

theorem follows_typeTag {wrong : Bytes → Fault → Prop}
    (hwrong : ∀ b rest, 8 < b.toNat → wrong (b :: rest) (.unknownTag b)) :
    Follows typeTag (fun ty bytes => bytes = [ty.byte]) wrong := by
  refine follows_tag TypeTag.none.byte .none rfl fun b => ?_
  split
  next ty h => exact .inl ⟨ty, rfl, by rw [TypeTag.byte_of_ofByte? h]⟩
  next h => exact .inr ⟨rfl, fun rest => hwrong b rest (TypeTag.ofByte?_eq_none h)⟩

theorem follows_pair {wrong : Bytes → Fault → Prop} :
    Follows pair (fun regs bytes => bytes = [regs.1, regs.2]) wrong := by
  intro input
  rw [pair, Input.remaining]
  rcases hrest : input.rest with _ | ⟨a, _ | ⟨b, rest⟩⟩
  · exact .cut (0, 0) [0, 0] (by decide) (by decide) (by rw [hrest]; rfl)
  · exact .cut (a, 0) [0] (by simp) (by decide) (by rw [hrest]; rfl)
  · rw [Input.advance, hrest]
    exact .value [a, b] hrest rfl

theorem follows_triple {wrong : Bytes → Fault → Prop} :
    Follows triple (fun regs bytes => bytes = [regs.1, regs.2.1, regs.2.2]) wrong := by
  intro input
  rw [triple, Input.remaining]
  rcases hrest : input.rest with _ | ⟨a, _ | ⟨b, _ | ⟨c, rest⟩⟩⟩
  · exact .cut (0, 0, 0) [0, 0, 0] (by decide) (by decide) (by rw [hrest]; rfl)
  · exact .cut (a, 0, 0) [0, 0] (by simp) (by decide) (by rw [hrest]; rfl)
  · exact .cut (a, b, 0) [0] (by simp) (by decide) (by rw [hrest]; rfl)
  · rw [Input.advance, hrest]
    exact .value [a, b, c] hrest rfl

/-- The operands of an operation complete its instruction. -/
theorem follows_operands (op : Opcode) :
    Follows (operands op) (fun i back => i.Written VarInt.Form ([op.byte] ++ back))
      (fun back => Misread ([op.byte] ++ back)) := by
  obtain ⟨hnone, hcall, hjump, hbranch, hdata, hload, hcast, hlength, hrange⟩ := op.of_layout
  unfold operands
  split
  next h =>
    obtain rfl | rfl := hnone h <;> exact .pure ⟨rfl, .cons rfl .nil⟩
  next h => exact follows_byte.bind fun r _ hr => .pure ⟨h, .cons rfl (.cons hr .nil)⟩
  next h =>
    refine follows_pair.bind fun ⟨a, b⟩ _ hpair => .pure ⟨h, ?_⟩
    subst hpair
    exact .byte op.byte (.byte a (.byte b .nil))
  next h =>
    refine follows_triple.bind fun ⟨a, b, c⟩ _ htriple => .pure ⟨h, ?_⟩
    subst htriple
    exact .byte op.byte (.byte a (.byte b (.byte c .nil)))
  next h =>
    obtain rfl := hcall h
    exact follows_byte.bind fun count _ hcount => follows_u16.bind fun target _ htarget =>
      .pure ⟨rfl, .cons rfl (.cons hcount (.cons htarget .nil))⟩
  next h =>
    obtain rfl := hjump h
    exact follows_u16.bind fun target _ htarget => .pure ⟨rfl, .cons rfl (.cons htarget .nil)⟩
  next h =>
    obtain rfl | rfl := hbranch h <;>
    exact follows_byte.bind fun r _ hr => follows_u16.bind fun target _ htarget =>
      .pure ⟨rfl, .cons rfl (.cons hr (.cons htarget .nil))⟩
  next h =>
    obtain rfl := hdata h
    exact follows_counted.bind fun data _ hdata => .pure ⟨rfl, .cons rfl (.cons hdata .nil)⟩
  next h =>
    obtain rfl := hload h
    refine follows_byte.bind fun dst _ hdst => ?_
    subst hdst
    refine (follows_typeTag fun b rest hb => ⟨b, rfl, .load hb⟩).bind fun ty _ hty => ?_
    exact follows_counted.bind fun data _ hdata =>
      .pure ⟨rfl, .cons rfl (.cons rfl (.cons hty (.cons hdata .nil)))⟩
  next h =>
    obtain rfl := hcast h
    refine follows_byte.bind fun src _ hsrc => follows_byte.bind fun dst _ hdst => ?_
    subst hsrc hdst
    exact (follows_typeTag fun b rest hb => ⟨b, rfl, .cast hb⟩).bind fun ty _ hty =>
      .pure ⟨rfl, .cons rfl (.cons rfl (.cons rfl (.cons hty .nil)))⟩
  next h =>
    obtain rfl | rfl := hlength h <;>
    exact follows_byte.bind fun src _ hsrc => follows_byte.bind fun dst _ hdst =>
      follows_varInt.bind fun length _ hlength =>
        .pure ⟨rfl, .cons rfl (.cons hsrc (.cons hdst (.cons hlength .nil)))⟩
  next h =>
    obtain rfl := hrange h
    exact follows_byte.bind fun src _ hsrc => follows_byte.bind fun dst _ hdst =>
      follows_varInt.bind fun index _ hindex => follows_varInt.bind fun length _ hlength =>
        .pure ⟨rfl, .cons rfl (.cons hsrc (.cons hdst (.cons hindex (.cons hlength .nil))))⟩

theorem follows_instr : Follows instr (Instr.Written VarInt.Form) Misread := by
  refine follows_opcode.bind fun op front hfront => ?_
  subst hfront
  exact follows_operands op

end Decode

namespace Instr

theorem payload_mem_items (i : Instr) : i.payload = [] ∨ .bytes i.payload ∈ i.items := by
  cases i with
  | throw | load => exact .inr (by simp [items, operandItems, payload])
  | _ => exact .inl rfl

theorem Written.wellFormed {i : Instr} {bytes : Bytes} (h : i.Written VarInt.Form bytes) :
    i.WellFormed := by
  refine ⟨h.fits, ?_⟩
  obtain hnil | hmem := i.payload_mem_items
  · rw [hnil]
    decide
  · exact h.items.writable _ hmem

/-- The well-formed instructions are just those that can be read from some data. -/
theorem wellFormed_iff_exists_read {i : Instr} :
    i.WellFormed ↔ ∃ input next, Decode.instr input = .ok i next := by
  constructor
  · intro h
    exact ⟨_, _, Decode.reads_instr h.written.lenient 0 []⟩
  · rintro ⟨input, next, h⟩
    obtain ⟨front, -, -, hwritten⟩ := Decode.follows_instr.of_ok h
    exact hwritten.wellFormed

end Instr

/-- No instruction starts the data, for the reason that the fault gives: the data ends within some
instruction, or a byte of it names nothing. -/
structure Stuck (data : Bytes) (fault : Fault) : Prop where
  ne_nil : data ≠ []
  unstarted : ∀ i front back, Instr.Written VarInt.Form i front → data ≠ front ++ back
  reason : (∃ wanted left i more, fault = .truncated wanted left ∧ left < wanted ∧ more ≠ [] ∧
    Instr.Written VarInt.Form i (data ++ more)) ∨ Misread data fault

theorem stuck_of_instr {input last : Input} {fault : Fault}
    (h : Decode.instr input = .error fault last) (hne : input.rest ≠ []) :
    Stuck input.rest fault := by
  refine ⟨hne, fun i front back hi hrest => ?_, ?_⟩
  · have hread := Decode.reads_instr hi input.pos back
    rw [← hrest, h] at hread
    cases hread
  · have hfollows := Decode.follows_instr input
    rw [h] at hfollows
    cases hfollows with
    | cut i more hlt hmore hi => exact .inl ⟨_, _, i, more, rfl, hlt, hmore, hi⟩
    | wrong _ hwrong => exact .inr hwrong

/-- The code that is left is listed to its end, or listed up to a place where no instruction
starts. -/
theorem disassembleFrom_cases (found : List (Nat × Instr)) (input : Input) :
    (∃ list, disassembleFrom found input = .ok (found.reverse ++ list) ∧
      Listed VarInt.Form input.pos list input.rest) ∨
    ∃ fault list front back, disassembleFrom found input = .error fault ∧
      input.rest = front ++ back ∧ Listed VarInt.Form input.pos list front ∧ Stuck back fault := by
  fun_induction disassembleFrom found input with
  | case1 found input hempty =>
    have hrest : input.rest = [] := List.isEmpty_iff.1 hempty
    rw [hrest]
    exact .inl ⟨[], by rw [List.append_nil], .nil⟩
  | case2 found input hsome i next hread ih =>
    have hfollows := Decode.follows_instr input
    rw [hread] at hfollows
    cases hfollows with
    | @value _ here rest hrest hi =>
    obtain ⟨list, hlist, hlisted⟩ | ⟨fault, list, front, back, hfault, hback, hlisted, hstuck⟩ := ih
    · refine .inl ⟨(input.pos, i) :: list, ?_, ?_⟩
      · rw [hlist, List.reverse_cons, List.append_assoc, List.singleton_append]
      · rw [hrest]
        exact .cons hi hlisted
    · have hback : rest = front ++ back := hback
      refine .inr ⟨fault, (input.pos, i) :: list, here ++ front, back, hfault, ?_,
        .cons hi hlisted, hstuck⟩
      rw [hrest, hback, List.append_assoc]
  | case3 found input hsome fault last hread =>
    have hne : input.rest ≠ [] := fun hnil => hsome (List.isEmpty_iff.2 hnil)
    exact .inr ⟨fault, [], [], input.rest, rfl, rfl, .nil, stuck_of_instr hread hne⟩

theorem disassemble_cases (code : Bytes) :
    (∃ list, disassemble code = .ok list ∧ Listed VarInt.Form 0 list code) ∨
    ∃ fault list front back, disassemble code = .error fault ∧ code = front ++ back ∧
      Listed VarInt.Form 0 list front ∧ Stuck back fault :=
  disassembleFrom_cases [] (Input.ofBytes code)

theorem disassemble_eq_ok_iff {code : Bytes} {list : List (Nat × Instr)} :
    disassemble code = .ok list ↔ Listed VarInt.Form 0 list code := by
  refine ⟨fun h => ?_, disassemble_listed⟩
  obtain ⟨found, hfound, hlisted⟩ | ⟨fault, _, _, _, hfault, -⟩ := disassemble_cases code
  · rw [h] at hfound
    rwa [Except.ok.inj hfound]
  · rw [h] at hfault
    cases hfault

namespace Instr

/-- No way to write an instruction takes fewer bytes than its encoding. -/
theorem Written.shorten {i : Instr} {bytes : Bytes} (h : i.Written VarInt.Form bytes) :
    i.Written VarInt.Shortest i.encode ∧ i.encode.length ≤ bytes.length := by
  obtain ⟨short, hshort, hle⟩ := h.items.shorten
  have hwritten : i.Written VarInt.Shortest short := ⟨h.fits, hshort⟩
  obtain rfl := hwritten.eq_encode
  exact ⟨hwritten, hle⟩

end Instr

namespace Listed
variable {pos : Nat} {list : List (Nat × Instr)} {code : Bytes}

theorem shorten (h : Listed VarInt.Form pos list code) (start : Nat) :
    Listed VarInt.Shortest start (Instr.place start (list.map Prod.snd))
        ((list.map Prod.snd).flatMap Instr.encode) ∧
      ((list.map Prod.snd).flatMap Instr.encode).length ≤ code.length := by
  induction h generalizing start with
  | nil => exact ⟨.nil, Nat.le_refl 0⟩
  | @cons pos i front list back hi _ ih =>
    obtain ⟨hwritten, hle⟩ := hi.shorten
    obtain ⟨hlisted, hles⟩ := ih (start + i.encode.length)
    simp only [List.map_cons, List.flatMap_cons, List.length_append]
    exact ⟨.cons hwritten hlisted, Nat.add_le_add hle hles⟩

theorem eq_encode (h : Listed VarInt.Shortest pos list code) :
    code = (list.map Prod.snd).flatMap Instr.encode := by
  induction h with
  | nil => rfl
  | cons hi _ ih => rw [List.map_cons, List.flatMap_cons, ← hi.eq_encode, ← ih]

end Listed

/-- Disassembling recognises just the instructions that lie one after the other, whatever forms
their VarInts have, and finds each at its offset. Other code is refused for the first place where no
instruction starts. Encoding what was found gives code for the same instructions that is no longer,
and it is the code itself just where all VarInts were shortest. -/
theorem disassemble_grammar (code : Bytes) :
    (∀ list, disassemble code = .ok list ↔ Listed VarInt.Form 0 list code) ∧
    (∀ fault, disassemble code = .error fault → ∃ list front back, code = front ++ back ∧
      Listed VarInt.Form 0 list front ∧ Stuck back fault) ∧
    (∀ is : List Instr, (∀ i ∈ is, i.WellFormed) →
      disassemble (is.flatMap Instr.encode) = .ok (Instr.place 0 is)) ∧
    ∀ list, disassemble code = .ok list →
      disassemble ((list.map Prod.snd).flatMap Instr.encode) =
        .ok (Instr.place 0 (list.map Prod.snd)) ∧
      ((list.map Prod.snd).flatMap Instr.encode).length ≤ code.length ∧
      ((list.map Prod.snd).flatMap Instr.encode = code ↔ Listed VarInt.Shortest 0 list code) := by
  refine ⟨fun list => disassemble_eq_ok_iff, fun fault h => ?_, fun is => disassemble_encode,
    fun list h => ?_⟩
  · obtain ⟨found, hfound, -⟩ | ⟨other, list, front, back, hother, hcode, hlisted, hstuck⟩ :=
      disassemble_cases code
    · rw [h] at hfound
      cases hfound
    · rw [h] at hother
      obtain rfl := Except.error.inj hother
      exact ⟨list, front, back, hcode, hlisted, hstuck⟩
  · obtain ⟨hshort, hle⟩ := (disassemble_eq_ok_iff.1 h).shorten 0
    refine ⟨disassemble_listed hshort.lenient, hle, fun hcode => ?_, fun hshortest => ?_⟩
    · rw [hcode] at hshort
      have hplace := disassemble_listed hshort.lenient
      rw [h] at hplace
      rw [Except.ok.inj hplace]
      exact hshort
    · exact hshortest.eq_encode.symm

end ChainScript.Machine
