import ChainScript.Machine.Listing
import ChainScript.Proofs.Assembly.Recovery
import ChainScript.Proofs.Machine.Grammar
import ChainScript.Proofs.Text.Unambiguous

/-! What the text of an instruction says. The mnemonic ends at the first character that is no
letter, and each operand but the last ends at the first comma. The text of a loaded value starts with
the letters of its kind, and those of data without a value with the name of their type, so no two
instructions are printed alike. -/
namespace ChainScript
open Text Machine

theorem Timestamp.text_inj {t u : Timestamp} : t.text = u.text ↔ t = u := by
  cases t
  cases u
  simp [text, UInt32.toNat_inj]

namespace Value

/-- The text of a value that data can stand for: some letters, and what comes behind them. -/
inductive Shown : Value → String → String → Prop where
  | text (s) : Shown (text s) "" (quoted s)
  | yes : Shown (bool true) "true" ""
  | no : Shown (bool false) "false" ""
  | time (t) : Shown (time t) "time" ("(" ++ t.text ++ ")")
  | bytes (data) : Shown (bytes data) "" ("0x" ++ Hex.lower data)
  | enum (n) : Shown (enum n) "enum" ("(" ++ toString n.toNat ++ ")")

theorem shown_of_ofRaw {ty : TypeTag} {data : Bytes} {v : Value} (h : ofRaw ty data = .ok v) :
    ∃ word behind, v.Shown word behind := by
  unfold ofRaw at h
  split at h
  case h_1 => cases h; exact ⟨_, _, .text _⟩
  case h_2 => cases h; exact ⟨_, _, .bytes _⟩
  case h_3 => cases h; exact ⟨_, _, .no⟩
  case h_4 => cases h; exact ⟨_, _, .yes⟩
  case h_5 => cases h; exact ⟨_, _, .time _⟩
  case h_6 => cases h; exact ⟨_, _, .enum _⟩
  case h_7 => cases h

namespace Shown
variable {v w : Value} {word behind other rest : String}

theorem render_eq (h : v.Shown word behind) : v.render = word ++ behind := by
  cases h <;> simp [render, ← String.append_assoc]

theorem isLower (h : v.Shown word behind) : ∀ c ∈ word.toList, c.isLower := by
  cases h <;> simp

/-- Behind the letters comes no letter and no colon. -/
theorem head_behind (h : v.Shown word behind) :
    ∀ c ∈ behind.toList.head?, c.isLower = false ∧ c ≠ ':' := by
  cases h <;> simp [quoted]

theorem value_unique (hv : v.Shown word behind) (hw : w.Shown other rest) (hword : word = other)
    (hbehind : behind = rest) : v = w := by
  have hquote (s : String) (data : Bytes) : quoted s ≠ "0x" ++ Hex.lower data := fun h => by
    simpa [quoted] using congrArg String.toList h
  -- Only texts and bytes have the same letters, and they differ in the character behind.
  cases hv <;> cases hw <;> simp at hword
  case text.text => rw [quoted_inj.1 hbehind]
  case text.bytes => exact absurd hbehind (hquote _ _)
  case yes.yes => rfl
  case no.no => rfl
  case time.time t u => simpa [Timestamp.text_inj] using hbehind
  case bytes.text => exact absurd hbehind.symm (hquote _ _)
  case bytes.bytes => simpa [Hex.lower_inj] using hbehind
  case enum.enum m n => simpa [UInt32.toNat_inj] using hbehind

end Shown
end Value

namespace Machine

theorem Opcode.mnemonic_inj {op other : Opcode} (h : op.mnemonic = other.mnemonic) :
    op = other := by
  have hfind (o : Opcode) : all.find? (fun x => x.mnemonic == o.mnemonic) = some o := by
    cases o <;> rfl
  have hop := hfind op
  rw [h, hfind other] at hop
  exact (Option.some.inj hop).symm

theorem Opcode.isLower_mnemonic (op : Opcode) : ∀ c ∈ op.mnemonic.toList, c.isLower := by
  apply List.all_eq_true.1
  cases op <;> rfl

theorem Opcode.length_mnemonic (op : Opcode) : op.mnemonic.length < 8 := by cases op <;> decide

theorem TypeTag.name_inj {ty other : TypeTag} : ty.name = other.name ↔ ty = other := by
  cases ty <;> cases other <;> decide

theorem TypeTag.isLower_name (ty : TypeTag) : ∀ c ∈ ty.name.toList, c.isLower := by
  apply List.all_eq_true.1
  cases ty <;> rfl

namespace Instr

/-- The text of loaded data: some letters, which are the name of their type if they stand for no
value, and what comes behind them. -/
inductive ShowsData (ty : TypeTag) (data : Bytes) : String → String → Prop where
  | value {v word behind} : Value.ofRaw ty data = .ok v → v.Shown word behind →
      ShowsData ty data word behind
  | bare {refusal} : Value.ofRaw ty data = .error refusal →
      ShowsData ty data ty.name (":0x" ++ Hex.lower data)

namespace ShowsData
variable {ty other : TypeTag} {data rest : Bytes} {word behind letters back : String}

theorem dataText_eq (h : ShowsData ty data word behind) : dataText ty data = word ++ behind := by
  cases h with
  | value hraw hshown => simp [dataText, hraw, hshown.render_eq]
  | bare hraw => simp [dataText, hraw, ← String.append_assoc]

theorem isLower (h : ShowsData ty data word behind) : ∀ c ∈ word.toList, c.isLower := by
  cases h with
  | value _ hshown => exact hshown.isLower
  | bare => exact ty.isLower_name

theorem head_behind (h : ShowsData ty data word behind) :
    ∀ c ∈ behind.toList.head?, c.isLower = false := by
  cases h with
  | value _ hshown => exact fun c hc => (hshown.head_behind c hc).1
  | bare => simp

/-- A colon behind the letters tells data without a value from all values. -/
theorem unique (h : ShowsData ty data word behind) (hother : ShowsData other rest letters back)
    (hword : word = letters) (hbehind : behind = back) : ty = other ∧ data = rest := by
  have hcolon {v : Value} {word behind : String} {bytes : Bytes} (hshown : v.Shown word behind) :
      behind ≠ ":0x" ++ Hex.lower bytes := by
    rintro rfl
    simpa using hshown.head_behind ':'
  cases h with
  | value hraw hshown =>
    cases hother with
    | value hsecond hvalue =>
      obtain rfl := hshown.value_unique hvalue hword hbehind
      obtain ⟨-, hty, hdata⟩ := Value.data_of_ofRaw hraw
      obtain ⟨-, hsame, hrest⟩ := Value.data_of_ofRaw hsecond
      exact ⟨hty.symm.trans hsame, Option.some.inj (hdata.symm.trans hrest)⟩
    | bare => exact absurd hbehind (hcolon hshown)
  | bare =>
    cases hother with
    | value _ hvalue => exact absurd hbehind.symm (hcolon hvalue)
    | bare => exact ⟨TypeTag.name_inj.1 hword, by simpa [Hex.lower_inj] using hbehind⟩

end ShowsData

theorem exists_showsData (ty : TypeTag) (data : Bytes) :
    ∃ word behind, ShowsData ty data word behind := by
  cases hraw : Value.ofRaw ty data with
  | ok v =>
    obtain ⟨word, behind, hshown⟩ := Value.shown_of_ofRaw hraw
    exact ⟨word, behind, .value hraw hshown⟩
  | error refusal => exact ⟨_, _, .bare hraw⟩

theorem dataText_inj {ty other : TypeTag} {data rest : Bytes} :
    dataText ty data = dataText other rest ↔ ty = other ∧ data = rest := by
  constructor
  · intro h
    obtain ⟨word, behind, hshows⟩ := exists_showsData ty data
    obtain ⟨letters, back, hother⟩ := exists_showsData other rest
    rw [hshows.dataText_eq, hother.dataText_eq, ← String.toList_inj, String.toList_append,
      String.toList_append] at h
    obtain ⟨hword, hbehind⟩ :=
      parts_unique hshows.isLower hother.isLower hshows.head_behind hother.head_behind h
    exact hshows.unique hother (String.toList_inj.1 hword) (String.toList_inj.1 hbehind)
  · rintro ⟨rfl, rfl⟩
    rfl

theorem regText_inj {r s : Reg} : regText r = regText s ↔ r = s := by
  simp [regText, toString, UInt8.toNat_inj]

theorem addressText_inj {target other : UInt16} :
    addressText target = addressText other ↔ target = other := by
  refine ⟨fun h => ?_, congrArg addressText⟩
  have hbytes : Wire.leBytes 2 target.toNat = Wire.leBytes 2 other.toNat := by
    simpa [addressText, Hex.lower_inj] using h
  have hvalue := congrArg Wire.leValue hbytes
  rw [Wire.leValue_leBytes_of_lt target.toNat_lt, Wire.leValue_leBytes_of_lt other.toNat_lt] at hvalue
  exact UInt16.toNat_inj.1 hvalue

def shownCount : Opcode.Layout → Nat
  | .none => 0
  | .one | .jump | .data => 1
  | .two | .call | .branch | .load => 2
  | .three | .cast | .length => 3
  | .range => 4

theorem length_operandTexts (i : Instr) : i.operandTexts.length = shownCount i.layout := by
  cases i <;> rfl

theorem comma_notMem_toDigits (n : Nat) : ',' ∉ Nat.toDigits 10 n :=
  notMem_toDigits (fun _ => (Nat.digitChar_ne ',' rfl).symm) (by decide) n

theorem comma_notMem_regText (r : Reg) : ',' ∉ (regText r).toList := by
  simp [regText, toString, comma_notMem_toDigits]

theorem comma_notMem_addressText (target : UInt16) : ',' ∉ (addressText target).toList := by
  have hdigits : ',' ∉ (Wire.leBytes 2 target.toNat).reverse.flatMap (Hex.pair 'a') :=
    Hex.notMem_pairs (by decide) _
  simp only [addressText, Hex.lower, String.toList_append, String.toList_ofList, List.mem_append,
    not_or]
  exact ⟨hdigits, by decide⟩

/-- The last operand may be a quoted text, which may have any character. -/
theorem comma_notMem_operandTexts (i : Instr) :
    ∀ t ∈ i.operandTexts.dropLast, ',' ∉ t.toList := by
  cases i <;>
    simp [operandTexts, comma_notMem_regText, comma_notMem_addressText, comma_notMem_toDigits]

theorem intercalate_unique {texts others : List String} (hlength : texts.length = others.length)
    (htexts : ∀ t ∈ texts.dropLast, ',' ∉ t.toList) (hothers : ∀ t ∈ others.dropLast, ',' ∉ t.toList)
    (h : ", ".intercalate texts = ", ".intercalate others) : texts = others := by
  have hcomma {s : String} (hs : ',' ∉ s.toList) : ∀ c ∈ s.toList, c != ',' := by
    intro c hc
    rw [bne_iff_ne]
    exact fun he => hs (he ▸ hc)
  induction texts generalizing others with
  | nil => exact (List.length_eq_zero_iff.1 hlength.symm).symm
  | cons t texts ih =>
    cases others with
    | nil => simp at hlength
    | cons u others =>
      cases texts with
      | nil =>
        obtain rfl : others = [] := by simpa using hlength.symm
        simpa using h
      | cons t' texts =>
        cases others with
        | nil => simp at hlength
        | cons u' others =>
          simp only [List.dropLast_cons_cons, List.forall_mem_cons] at htexts hothers
          rw [String.intercalate_cons_cons, String.intercalate_cons_cons, ← String.toList_inj] at h
          simp only [String.toList_append, List.append_assoc] at h
          obtain ⟨hhead, htail⟩ := parts_unique (hcomma htexts.1) (hcomma hothers.1)
            (by simp) (by simp) h
          rw [List.append_cancel_left_eq, String.toList_inj] at htail
          rw [String.toList_inj.1 hhead, ih (by simpa using hlength) htexts.2 hothers.2 htail]

theorem render_of_nil {i : Instr} (h : i.operandTexts = []) : i.render = i.opcode.mnemonic := by
  simp [render, h]

theorem render_of_ne_nil {i : Instr} (h : i.operandTexts ≠ []) :
    i.render = lead i.opcode ++ ", ".intercalate i.operandTexts := by
  rw [render]
  split
  next hnil => exact absurd hnil h
  next => rfl

/-- No letter comes behind the mnemonic. -/
theorem exists_render (i : Instr) :
    ∃ behind, i.render.toList = i.opcode.mnemonic.toList ++ behind ∧
      ∀ c ∈ behind.head?, c.isLower = false := by
  by_cases h : i.operandTexts = []
  · exact ⟨[], by simp [render_of_nil h], by simp⟩
  · have hpad : ∃ more, List.replicate (8 - i.opcode.mnemonic.length) ' ' = ' ' :: more := by
      obtain ⟨n, hn⟩ : ∃ n, 8 - i.opcode.mnemonic.length = n + 1 :=
        Nat.exists_eq_succ_of_ne_zero (Nat.sub_ne_zero_of_lt i.opcode.length_mnemonic)
      exact ⟨List.replicate n ' ', by rw [hn, List.replicate_succ]⟩
    obtain ⟨more, hmore⟩ := hpad
    refine ⟨' ' :: (more ++ (", ".intercalate i.operandTexts).toList), ?_, by simp⟩
    simp [render_of_ne_nil h, lead, hmore]

theorem opcode_of_render {i j : Instr} (h : i.render = j.render) : i.opcode = j.opcode := by
  obtain ⟨behind, hi, hbehind⟩ := i.exists_render
  obtain ⟨back, hj, hback⟩ := j.exists_render
  rw [← String.toList_inj, hi, hj] at h
  obtain ⟨hsame, -⟩ :=
    parts_unique i.opcode.isLower_mnemonic j.opcode.isLower_mnemonic hbehind hback h
  exact Opcode.mnemonic_inj (String.toList_inj.1 hsame)

theorem operandTexts_of_render {i j : Instr} (hop : i.opcode = j.opcode)
    (hlayout : i.layout = j.layout) (h : i.render = j.render) : i.operandTexts = j.operandTexts := by
  have hlength : i.operandTexts.length = j.operandTexts.length := by
    rw [length_operandTexts, length_operandTexts, hlayout]
  by_cases hi : i.operandTexts = []
  · rw [hi, List.length_nil] at hlength
    rw [hi, List.length_eq_zero_iff.1 hlength.symm]
  · have hj : j.operandTexts ≠ [] := by
      intro hj
      simp [hj] at hlength
      exact hi hlength
    rw [render_of_ne_nil hi, render_of_ne_nil hj, hop, String.append_right_inj] at h
    exact intercalate_unique hlength i.comma_notMem_operandTexts j.comma_notMem_operandTexts h

/-- The opcode and its operands are all there is to an instruction. -/
theorem eq_of_operandTexts {i j : Instr} (hop : i.opcode = j.opcode)
    (hlayout : i.layout = j.layout) (h : i.operandTexts = j.operandTexts) : i = j := by
  -- Those of one layout are of one kind, apart from some that differ in the opcode.
  cases i <;> cases j <;> cases hlayout <;>
    simp_all [opcode, operandTexts, regText_inj, addressText_inj, dataText_inj, Hex.lower_inj,
      TypeTag.name_inj, UInt8.toNat_inj, UInt64.toNat_inj]

theorem fits_of_instr {input next : Wire.Input} {i : Instr}
    (h : Decode.instr input = .ok i next) : i.Fits :=
  (wellFormed_iff_exists_read.2 ⟨input, next, h⟩).fits

/-- Instructions with the operands that their opcodes call for, and only these are ever decoded, have
one text only if they are one. So have loaded data: neither those of two types nor two of one type
are shown alike, whether they stand for a value or not. -/
theorem render_inj :
    (∀ i j : Instr, i.Fits → j.Fits → (i.render = j.render ↔ i = j)) ∧
    (∀ input i next, Decode.instr input = .ok i next → i.Fits) ∧
    ∀ ty other data rest, dataText ty data = dataText other rest ↔ ty = other ∧ data = rest := by
  refine ⟨fun i j hi hj => ⟨fun h => ?_, congrArg render⟩, fun _ _ _ => fits_of_instr,
    fun _ _ _ _ => dataText_inj⟩
  have hop := opcode_of_render h
  have hlayout : i.layout = j.layout := by
    rw [← hi, ← hj, hop]
  exact eq_of_operandTexts hop hlayout (operandTexts_of_render hop hlayout h)

/-- A zero character and the two characters that it is escaped by. -/
theorem render_ne_of_escaped :
    (load 3 .string [0x00]).Fits ∧ (load 3 .string [0x5C, 0x30]).Fits ∧
      (load 3 .string [0x00]).render ≠ (load 3 .string [0x5C, 0x30]).render := by
  have hzero : (load 3 .string [0x00]).Fits := by decide
  have hletters : (load 3 .string [0x5C, 0x30]).Fits := by decide
  exact ⟨hzero, hletters, fun h => absurd ((render_inj.1 _ _ hzero hletters).1 h) (by decide)⟩

end Instr
end Machine
end ChainScript
