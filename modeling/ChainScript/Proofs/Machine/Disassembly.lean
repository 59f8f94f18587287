import ChainScript.Machine.Listing
import ChainScript.Machine.Operation
import ChainScript.Proofs.Wire.ReadBack

/-! Disassembling what was assembled: instructions written one after the other are found again,
each at the offset where it was written. -/
namespace ChainScript.Machine
open Wire Wire.Decoder

namespace Instr

def payload : Instr → Bytes
  | throw data | load _ _ data => data
  | _ => []

/-- What decoding can return: the opcode calls for just these operands, and the payload has a
length that a VarInt can say. -/
structure WellFormed (i : Instr) : Prop where
  fits : i.Fits
  short : i.payload.length < UInt64.size

theorem wellFormed_of_bare {i : Instr} (hfits : i.Fits := by rfl)
    (hbare : i.payload = [] := by rfl) : i.WellFormed :=
  ⟨hfits, by rw [hbare]; decide⟩

theorem Named.wellFormed {i : Instr} (h : i.Named) : i.WellFormed := by
  cases h with
  | arith op => cases op <;> exact wellFormed_of_bare
  | _ => exact wellFormed_of_bare

def operandItems : Instr → List Item
  | nop | ret => []
  | single _ r => [.u8 r]
  | pair _ a b => [.u8 a, .u8 b]
  | triple _ a b c => [.u8 a, .u8 b, .u8 c]
  | call count target => [.u8 count, .u16 target]
  | jmp target => [.u16 target]
  | jmpif r target | jmpnot r target => [.u8 r, .u16 target]
  | throw data => [.bytes data]
  | load dst ty data => [.u8 dst, .u8 ty.byte, .bytes data]
  | cast src dst ty => [.u8 src, .u8 dst, .u8 ty.byte]
  | left src dst length | right src dst length => [.u8 src, .u8 dst, .varInt length]
  | substr src dst index length => [.u8 src, .u8 dst, .varInt index, .varInt length]

def items (i : Instr) : List Item := .u8 i.opcode.byte :: i.operandItems

/-- The bytes are the instruction's, with its VarInts in some of the forms. -/
structure Written (form : Nat → Bytes → Prop) (i : Instr) (bytes : Bytes) : Prop where
  fits : i.Fits
  items : Item.WrittenAll form i.items bytes

theorem encodeAll_items (i : Instr) : Item.encodeAll i.items = .ok i.encode := by
  have hoperands : Item.encodeAll i.operandItems = .ok i.operands := by
    cases i with
    | throw data => exact congrArg Except.ok (List.append_nil (counted data))
    | load dst ty data =>
      exact congrArg (fun bytes => Except.ok (dst :: ty.byte :: bytes))
        (List.append_nil (counted data))
    | left src dst length | right src dst length =>
      exact congrArg (fun bytes => Except.ok (src :: dst :: bytes)) (List.append_nil _)
    | substr src dst index length =>
      exact congrArg (fun bytes => Except.ok (src :: dst :: (VarInt.encode index ++ bytes)))
        (List.append_nil _)
    | _ => rfl
  have hopcode : (Item.u8 i.opcode.byte).encode = .ok [i.opcode.byte] := rfl
  exact Item.encodeAll_cons hopcode hoperands

theorem Written.eq_encode {i : Instr} {bytes : Bytes} (h : i.Written VarInt.Shortest bytes) :
    bytes = i.encode := by
  have hencode := h.items.encodeAll_eq
  rw [encodeAll_items] at hencode
  exact (Except.ok.inj hencode).symm

theorem Written.ne_nil {form : Nat → Bytes → Prop} {i : Instr} {bytes : Bytes}
    (h : i.Written form bytes) : bytes ≠ [] := by
  obtain ⟨_, back, rfl, rfl, -⟩ := h.items.of_cons
  exact List.cons_ne_nil _ _

theorem Written.lenient {i : Instr} {bytes : Bytes} (h : i.Written VarInt.Shortest bytes) :
    i.Written VarInt.Form bytes :=
  ⟨h.fits, h.items.lenient⟩

theorem WellFormed.written {i : Instr} (h : i.WellFormed) :
    i.Written VarInt.Shortest i.encode := by
  have hwritable : ∀ item ∈ i.items, item.Writable := by
    have hshort := h.short
    cases i <;> simp [items, operandItems, Item.Writable] <;> exact hshort
  obtain ⟨bytes, hbytes⟩ := Item.exists_writtenAll hwritable
  have hwritten : i.Written VarInt.Shortest bytes := ⟨h.fits, hbytes⟩
  obtain rfl := hwritten.eq_encode
  exact hwritten

def place (offset : Nat) : List Instr → List (Nat × Instr)
  | [] => []
  | i :: is => (offset, i) :: place (offset + i.encode.length) is

theorem map_snd_place (offset : Nat) (is : List Instr) : (place offset is).map Prod.snd = is := by
  induction is generalizing offset with
  | nil => rfl
  | cons i is ih => rw [place, List.map_cons, ih]

theorem place_append (offset : Nat) (is js : List Instr) :
    place offset (is ++ js) =
      place offset is ++ place (offset + (is.flatMap encode).length) js := by
  induction is generalizing offset with
  | nil => rfl
  | cons i is ih =>
    simp only [List.cons_append, place, ih, List.flatMap_cons, List.length_append, Nat.add_assoc]

end Instr

namespace Decode

theorem readsItems_opcode (op : Opcode) : ReadsItems opcode [.u8 op.byte] op := by
  refine (readsItems_byte op.byte).bind ?_
  rw [Opcode.ofByte?_byte]
  exact .pure op

theorem readsItems_typeTag (ty : TypeTag) : ReadsItems typeTag [.u8 ty.byte] ty := by
  refine (readsItems_byte ty.byte).bind ?_
  rw [TypeTag.ofByte?_byte]
  exact .pure ty

theorem readsItems_pair (a b : Reg) : ReadsItems pair [.u8 a, .u8 b] (a, b) := by
  intro bytes h
  obtain ⟨_, _, rfl, rfl, hb⟩ := h.of_cons
  obtain ⟨_, _, rfl, rfl, hnil⟩ := hb.of_cons
  obtain rfl := hnil.of_nil
  exact fun _ _ => rfl

theorem readsItems_triple (a b c : Reg) : ReadsItems triple [.u8 a, .u8 b, .u8 c] (a, b, c) := by
  intro bytes h
  obtain ⟨_, _, rfl, rfl, hb⟩ := h.of_cons
  obtain ⟨_, _, rfl, rfl, hc⟩ := hb.of_cons
  obtain ⟨_, _, rfl, rfl, hnil⟩ := hc.of_cons
  obtain rfl := hnil.of_nil
  exact fun _ _ => rfl

theorem readsItems_operands {i : Instr} (hfits : i.Fits) :
    ReadsItems (operands i.opcode) i.operandItems i := by
  have hlayout : i.opcode.layout = i.layout := hfits
  rw [operands, hlayout]
  cases i with
  | nop | ret => exact .pure _
  | single op r => exact (readsItems_byte r).bind (.pure _)
  | pair op a b => exact (readsItems_pair a b).bind (.pure _)
  | triple op a b c => exact (readsItems_triple a b c).bind (.pure _)
  | call count target => exact (readsItems_byte count).bind ((readsItems_u16 target).bind (.pure _))
  | jmp target => exact (readsItems_u16 target).bind (.pure _)
  | jmpif r target | jmpnot r target =>
    exact (readsItems_byte r).bind ((readsItems_u16 target).bind (.pure _))
  | throw data => exact (readsItems_counted data).bind (.pure _)
  | load dst ty data =>
    exact (readsItems_byte dst).bind ((readsItems_typeTag ty).bind
      ((readsItems_counted data).bind (.pure _)))
  | cast src dst ty =>
    exact (readsItems_byte src).bind ((readsItems_byte dst).bind
      ((readsItems_typeTag ty).bind (.pure _)))
  | left src dst length | right src dst length =>
    exact (readsItems_byte src).bind ((readsItems_byte dst).bind
      ((readsItems_varInt length).bind (.pure _)))
  | substr src dst index length =>
    exact (readsItems_byte src).bind ((readsItems_byte dst).bind
      ((readsItems_varInt index).bind ((readsItems_varInt length).bind (.pure _))))

/-- An instruction is found at the front of any data that starts with bytes it may be written as. -/
theorem reads_instr {i : Instr} {bytes : Bytes} (h : i.Written VarInt.Form bytes) :
    Reads instr bytes i :=
  (readsItems_opcode i.opcode).bind (readsItems_operands h.fits) bytes h.items

end Decode

/-- Code made of instructions that lie one after the other, each listed with its offset. -/
inductive Listed (form : Nat → Bytes → Prop) : Nat → List (Nat × Instr) → Bytes → Prop where
  | nil {pos} : Listed form pos [] []
  | cons {pos i front list back} : i.Written form front →
      Listed form (pos + front.length) list back →
      Listed form pos ((pos, i) :: list) (front ++ back)

theorem Listed.lenient {pos : Nat} {list : List (Nat × Instr)} {code : Bytes}
    (h : Listed VarInt.Shortest pos list code) : Listed VarInt.Form pos list code := by
  induction h with
  | nil => exact .nil
  | cons hi _ ih => exact .cons hi.lenient ih

theorem listed_place {is : List Instr} (h : ∀ i ∈ is, i.WellFormed) (pos : Nat) :
    Listed VarInt.Shortest pos (Instr.place pos is) (is.flatMap Instr.encode) := by
  induction is generalizing pos with
  | nil => exact .nil
  | cons i is ih =>
    exact .cons (h i List.mem_cons_self).written
      (ih (fun j hj => h j (List.mem_cons_of_mem i hj)) (pos + i.encode.length))

theorem disassembleFrom_listed {pos : Nat} {list : List (Nat × Instr)} {code : Bytes}
    (h : Listed VarInt.Form pos list code) (found : List (Nat × Instr)) :
    disassembleFrom found ⟨pos, code⟩ = .ok (found.reverse ++ list) := by
  induction h generalizing found with
  | nil => simp [disassembleFrom, Input.isEmpty]
  | @cons pos i front list back hi _ ih =>
    have hread := Decode.reads_instr hi pos back
    rw [disassembleFrom, if_neg (by simpa [Input.isEmpty] using fun hnil => absurd hnil hi.ne_nil)]
    split
    next j next hj =>
      rw [hread] at hj
      obtain ⟨rfl, rfl⟩ := EStateM.Result.ok.inj hj
      rw [ih]
      simp
    next fault stop hj =>
      rw [hread] at hj
      cases hj

/-- Instructions that lie one after the other are found again where they lie. -/
theorem disassemble_listed {list : List (Nat × Instr)} {code : Bytes}
    (h : Listed VarInt.Form 0 list code) : disassemble code = .ok list :=
  disassembleFrom_listed h []

/-- Instructions written one after the other are found again where they were written. -/
theorem disassemble_encode {is : List Instr} (h : ∀ i ∈ is, i.WellFormed) :
    disassemble (is.flatMap Instr.encode) = .ok (Instr.place 0 is) :=
  disassemble_listed (listed_place h 0).lenient

end ChainScript.Machine
