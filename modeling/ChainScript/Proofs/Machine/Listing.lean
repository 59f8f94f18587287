import ChainScript.Proofs.Machine.Disassembly
import ChainScript.Proofs.Text.SingleLine

/-! Listings and disassembly. Both follow the code instruction by instruction to its end, or to the
first place where there is none. A listing has a line for each instruction and one more for a fault,
and no instruction breaks its line, whatever bytes it carries. -/
namespace ChainScript
open Text Wire Machine

theorem Hex.Fault.singleLine_message (fault : Hex.Fault) : SingleLine fault.message := by
  cases fault with
  | oddLength n =>
    change SingleLine ("odd hex string length " ++ toString n)
    simp [SingleLine, newline_notMem_toDigits]
  | badByte b =>
    change SingleLine ("invalid hex character " ++ toString b.toNat)
    simp [SingleLine, newline_notMem_toDigits]

theorem Wire.Fault.singleLine_message (fault : Fault) : SingleLine fault.message := by
  cases fault with
  | truncated wanted left =>
    change SingleLine ("attempt to read " ++ toString wanted ++ " bytes while only " ++
      toString left ++ " bytes remain.")
    simp [SingleLine, newline_notMem_toDigits]
  | unknownTag tag =>
    refine (SingleLine.append ?_ (Hex.singleLine_upper [tag])).append (by decide)
    simp [SingleLine]
  | trailing count =>
    change SingleLine (toString count ++ " unexpected bytes after the end of data.")
    simp [SingleLine, newline_notMem_toDigits]
  | badHex fault =>
    refine SingleLine.append ?_ fault.singleLine_message
    simp [SingleLine]

/-- What comes from bytes is no number, whose digits could be any text. -/
theorem Value.singleLine_render_of_ofRaw {ty : TypeTag} {data : Bytes} {v : Value}
    (h : ofRaw ty data = .ok v) : SingleLine v.render := by
  unfold ofRaw at h
  split at h
  · cases h
    exact singleLine_quoted _
  · cases h
    exact SingleLine.append (by decide) (Hex.singleLine_lower _)
  · cases h
    decide
  · cases h
    decide
  · cases h
    exact (SingleLine.append (by decide) (singleLine_toString _)).append (by decide)
  · cases h
    exact (SingleLine.append (by decide) (singleLine_toString _)).append (by decide)
  · cases h

namespace Machine
namespace Instr

theorem singleLine_regText (r : Reg) : SingleLine (regText r) :=
  SingleLine.append (by decide) (singleLine_toString r.toNat)

theorem singleLine_addressText (target : UInt16) : SingleLine (addressText target) :=
  (Hex.singleLine_lower _).append (by decide)

theorem singleLine_name (ty : TypeTag) : SingleLine ty.name := by cases ty <;> decide

theorem singleLine_dataText (ty : TypeTag) (data : Bytes) : SingleLine (dataText ty data) := by
  rw [dataText]
  split
  next v h => exact Value.singleLine_render_of_ofRaw h
  next => exact ((singleLine_name ty).append (by decide)).append (Hex.singleLine_lower data)

theorem singleLine_operandTexts (i : Instr) : ∀ t ∈ i.operandTexts, SingleLine t := by
  have hthrow (data : Bytes) : SingleLine ("0x" ++ Hex.lower data) :=
    SingleLine.append (by decide) (Hex.singleLine_lower data)
  cases i <;> simp only [operandTexts, List.forall_mem_cons, List.not_mem_nil, false_implies,
    implies_true, and_true, singleLine_regText, singleLine_addressText, singleLine_name,
    singleLine_dataText, singleLine_toString, hthrow]

theorem singleLine_mnemonic (op : Opcode) : SingleLine op.mnemonic := by cases op <;> decide

theorem singleLine_lead (op : Opcode) : SingleLine (lead op) := by
  refine (singleLine_mnemonic op).append ?_
  rw [SingleLine, String.toList_ofList]
  exact fun h => absurd (List.eq_of_mem_replicate h) (by decide)

theorem singleLine_render (i : Instr) : SingleLine i.render := by
  have htexts := i.singleLine_operandTexts
  rw [render]
  split
  next => exact singleLine_mnemonic _
  next => exact (singleLine_lead _).append (singleLine_intercalate (by decide) htexts)

end Instr

def upperDigits : List Char :=
  ['0', '1', '2', '3', '4', '5', '6', '7', '8', '9', 'A', 'B', 'C', 'D', 'E', 'F']

def digitsValue (digits : List Char) : Nat :=
  digits.foldl (fun n c => 16 * n + upperDigits.idxOf c) 0

/-- The text is the number in uppercase hexadecimal, filled up with zeros to six digits and no
further. -/
structure ShowsOffset (offset : Nat) (text : String) : Prop where
  upper : ∀ c ∈ text.toList, c ∈ upperDigits
  value : digitsValue text.toList = offset
  six : 6 ≤ text.length
  least : ∀ k, 6 ≤ k → (text.length ≤ k ↔ offset < 16 ^ k)

theorem upperDigits_toUpper {n : Nat} (h : n < 16) :
    n.digitChar.toUpper ∈ upperDigits ∧ upperDigits.idxOf n.digitChar.toUpper = n := by
  have hall : ∀ k : Fin 16, (Nat.digitChar k).toUpper ∈ upperDigits ∧
      upperDigits.idxOf (Nat.digitChar k).toUpper = k := by decide
  exact hall ⟨n, h⟩

theorem toDigits_toUpper (n : Nat) :
    (∀ c ∈ (Nat.toDigits 16 n).map Char.toUpper, c ∈ upperDigits) ∧
      digitsValue ((Nat.toDigits 16 n).map Char.toUpper) = n := by
  induction n using Nat.strongRecOn with
  | ind n ih =>
    rw [Nat.toDigits_eq_if (by decide)]
    split
    next hlt =>
      obtain ⟨hmem, hvalue⟩ := upperDigits_toUpper hlt
      refine ⟨by simpa using hmem, ?_⟩
      change 16 * 0 + _ = n
      rw [hvalue, Nat.mul_zero, Nat.zero_add]
    next hle =>
      obtain ⟨hupper, hdigits⟩ := ih (n / 16) (Nat.div_lt_self (by omega) (by decide))
      obtain ⟨hmem, hvalue⟩ := upperDigits_toUpper (Nat.mod_lt n (by decide))
      rw [List.map_append]
      refine ⟨List.forall_mem_append.2 ⟨hupper, by simpa using hmem⟩, ?_⟩
      rw [digitsValue, List.foldl_append, ← digitsValue, hdigits]
      change 16 * (n / 16) + _ = n
      rw [hvalue]
      exact Nat.div_add_mod n 16

theorem digitsValue_zeros (count : Nat) (digits : List Char) :
    digitsValue (List.replicate count '0' ++ digits) = digitsValue digits := by
  induction count with
  | zero => rfl
  | succ count ih => exact ih

theorem offsetText_shows (offset : Nat) : ShowsOffset offset (offsetText offset) := by
  obtain ⟨hupper, hvalue⟩ := toDigits_toUpper offset
  have hlength : (offsetText offset).length = max 6 (Nat.toDigits 16 offset).length := by
    rw [← String.length_toList, offsetText, String.toList_ofList, List.length_append,
      List.length_replicate, List.length_map]
    omega
  constructor
  · rw [offsetText, String.toList_ofList]
    refine List.forall_mem_append.2 ⟨fun c hc => ?_, hupper⟩
    rw [List.eq_of_mem_replicate hc]
    decide
  · rw [offsetText, String.toList_ofList, digitsValue_zeros, hvalue]
  · rw [hlength]
    exact Nat.le_max_left _ _
  · intro k hk
    rw [hlength, ← Nat.length_toDigits_le_iff (by decide) (by omega)]
    omega

theorem singleLine_offsetText (offset : Nat) : SingleLine (offsetText offset) :=
  fun h => absurd ((offsetText_shows offset).upper _ h) (by decide)

/-- The instructions at the front of the code, each with its offset, and the place behind the
last. -/
inductive Decodes : Input → List (Nat × Instr) → Input → Prop where
  | nil {input} : Decodes input [] input
  | cons {input next last i list} : Decode.instr input = .ok i next → Decodes next list last →
      Decodes input ((input.pos, i) :: list) last

def linesText (list : List (Nat × Instr)) : String :=
  String.join (list.map fun (offset, i) => "@x" ++ offsetText offset ++ ": " ++ i.render ++ "\n")

theorem linesText_cons (offset : Nat) (i : Instr) (list : List (Nat × Instr)) :
    linesText ((offset, i) :: list) = line offset i.render ++ linesText list := by
  rw [linesText, List.map_cons, String.join_cons]
  rfl

theorem listingFrom_cases (found : List (Nat × Instr)) (text : String) (input : Input) :
    ∃ list last, Decodes input list last ∧
      (last.rest = [] ∧ disassembleFrom found input = .ok (found.reverse ++ list) ∧
          listingFrom text input = text ++ linesText list ∨
        ∃ fault stop, last.rest ≠ [] ∧ Decode.instr last = .error fault stop ∧
          disassembleFrom found input = .error fault ∧
          listingFrom text input =
            text ++ linesText list ++ line last.pos ("; <" ++ fault.message ++ ">")) := by
  fun_induction disassembleFrom found input generalizing text with
  | case1 found input hempty =>
    refine ⟨[], input, .nil, .inl ⟨List.isEmpty_iff.1 hempty, ?_, ?_⟩⟩
    · rw [List.append_nil]
    · rw [listingFrom, if_pos hempty]
      exact (String.append_empty).symm
  | case2 found input hsome i next hread ih =>
    have htext : listingFrom text input =
        listingFrom (text ++ line input.pos i.render) next := by
      rw [listingFrom, if_neg hsome]
      split
      next j after hj =>
        rw [hread] at hj
        obtain ⟨rfl, rfl⟩ := EStateM.Result.ok.inj hj
        rfl
      next fault stop hj =>
        rw [hread] at hj
        cases hj
    have hlines (list : List (Nat × Instr)) :
        text ++ line input.pos i.render ++ linesText list =
          text ++ linesText ((input.pos, i) :: list) := by
      rw [linesText_cons, String.append_assoc]
    obtain ⟨list, last, hlist, ⟨hend, hok, hlisting⟩ |
      ⟨fault, stop, hmore, hfault, herror, hlisting⟩⟩ := ih (text ++ line input.pos i.render)
    · refine ⟨_, last, .cons hread hlist, .inl ⟨hend, ?_, ?_⟩⟩
      · rw [hok, List.reverse_cons, List.append_assoc, List.singleton_append]
      · rw [htext, hlisting, hlines]
    · refine ⟨_, last, .cons hread hlist, .inr ⟨fault, stop, hmore, hfault, herror, ?_⟩⟩
      rw [htext, hlisting, hlines]
  | case3 found input hsome fault stop hread =>
    have hne : input.rest ≠ [] := fun hnil => hsome (List.isEmpty_iff.2 hnil)
    refine ⟨[], input, .nil, .inr ⟨fault, stop, hne, hread, rfl, ?_⟩⟩
    rw [listingFrom, if_neg hsome]
    split
    next i next hi =>
      rw [hread] at hi
      cases hi
    next other last hother =>
      rw [hread] at hother
      obtain ⟨rfl, rfl⟩ := EStateM.Result.error.inj hother
      exact congrArg (· ++ _) (String.append_empty).symm

theorem count_newline_of_singleLine {s : String} (h : SingleLine s) : s.toList.count '\n' = 0 :=
  List.count_eq_zero.2 h

theorem count_newline_line (offset : Nat) {text : String} (h : SingleLine text) :
    (line offset text).toList.count '\n' = 1 := by
  have hfront : SingleLine ("@x" ++ offsetText offset ++ ": " ++ text) :=
    ((SingleLine.append (by decide) (singleLine_offsetText offset)).append (by decide)).append h
  rw [line, String.toList_append, List.count_append, count_newline_of_singleLine hfront]
  rfl

theorem count_newline_linesText (list : List (Nat × Instr)) :
    (linesText list).toList.count '\n' = list.length := by
  induction list with
  | nil => rfl
  | cons entry list ih =>
    rw [linesText_cons, String.toList_append, List.count_append, ih,
      count_newline_line _ entry.2.singleLine_render, List.length_cons, Nat.add_comm]

/-- The listing of any code has a line for every instruction up to the end of the code, or up to the
first place where there is none: the offset in hexadecimal and the instruction. These are the
instructions that disassembling finds, if it does not fail. If it fails, and only then, a last line
says where and why. No text of an instruction has a line break. -/
theorem listing_of_disassemble (code : Bytes) :
    (∃ list last, Decodes (.ofBytes code) list last ∧
      (last.rest = [] ∧ disassemble code = .ok list ∧ listing code = linesText list ∧
          (listing code).toList.count '\n' = list.length ∨
        ∃ fault stop, last.rest ≠ [] ∧ Decode.instr last = .error fault stop ∧
          disassemble code = .error fault ∧
          listing code = linesText list ++
            ("@x" ++ offsetText last.pos ++ ": " ++ ("; <" ++ fault.message ++ ">") ++ "\n") ∧
          (listing code).toList.count '\n' = list.length + 1)) ∧
    (∀ offset, ShowsOffset offset (offsetText offset)) ∧
    ∀ i : Instr, '\n' ∉ i.render.toList := by
  refine ⟨?_, offsetText_shows, Instr.singleLine_render⟩
  obtain ⟨list, last, hlist, ⟨hend, hok, hlisting⟩ |
    ⟨fault, stop, hmore, hfault, herror, hlisting⟩⟩ := listingFrom_cases [] "" (.ofBytes code)
  · refine ⟨list, last, hlist, .inl ⟨hend, hok, ?_⟩⟩
    have hlines : listing code = linesText list := by
      rw [listing, hlisting, String.empty_append]
    rw [hlines]
    exact ⟨rfl, count_newline_linesText list⟩
  · refine ⟨list, last, hlist, .inr ⟨fault, stop, hmore, hfault, herror, ?_⟩⟩
    have hlines : listing code =
        linesText list ++ line last.pos ("; <" ++ fault.message ++ ">") := by
      rw [listing, hlisting, String.empty_append]
    have hmessage : SingleLine ("; <" ++ fault.message ++ ">") :=
      (SingleLine.append (by decide) fault.singleLine_message).append (by decide)
    rw [hlines]
    refine ⟨rfl, ?_⟩
    rw [String.toList_append, List.count_append, count_newline_linesText,
      count_newline_line last.pos hmessage]

end Machine
end ChainScript
