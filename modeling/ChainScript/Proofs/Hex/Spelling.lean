import ChainScript.Proofs.Hex
import ChainScript.Proofs.Text.SingleByte

/-! Which texts are hexadecimal, which bytes they spell, and what is wrong with the others. A text
is looked at in its UTF-8 form. There every character that is no digit has only bytes that are those
of no digit, so nothing is lost by that. -/
namespace ChainScript

theorem length_utf8 (s : String) : (utf8 s).length = s.utf8ByteSize := by
  have hbytes : s.toByteArray = (utf8 s).toByteArray := by
    rw [utf8, ← List.utf8Encode, ← String.toByteArray_ofList, String.ofList_toList]
  rw [← String.size_toByteArray, hbytes, List.size_toByteArray]

namespace Hex

def Digit (c : Char) : Prop :=
  ('0' ≤ c ∧ c ≤ '9') ∨ ('A' ≤ c ∧ c ≤ 'F') ∨ ('a' ≤ c ∧ c ≤ 'f')

instance (c : Char) : Decidable (Digit c) := inferInstanceAs (Decidable (_ ∨ _ ∨ _))

def value (c : Char) : Nat :=
  if c ≤ '9' then c.toNat - '0'.toNat
  else if c ≤ 'F' then c.toNat - 'A'.toNat + 10
  else c.toNat - 'a'.toNat + 10

/-- A byte is spelled with two digits, the high one first. -/
inductive Spells : List Char → Bytes → Prop where
  | nil : Spells [] []
  | cons {high low b chars bytes} : Digit high → Digit low →
      b.toNat = 16 * value high + value low → Spells chars bytes →
      Spells (high :: low :: chars) (b :: bytes)

/-- What is wrong with a text: the length of its UTF-8 form, or else the first byte of that form
which is not the byte of a digit. -/
inductive Faulty (s : String) : Fault → Prop where
  | odd : s.utf8ByteSize % 2 = 1 → Faulty s (.oddLength s.utf8ByteSize)
  | stray {front b back} : s.utf8ByteSize % 2 = 0 → utf8 s = front ++ b :: back →
      (∀ x ∈ front, Digit (Char.ofNat x.toNat)) → ¬ Digit (Char.ofNat b.toNat) →
      Faulty s (.badByte b)

namespace Digit

variable {c : Char}

theorem toNat_lt (h : Digit c) : c.toNat < 103 := by
  have hle {d e : Char} (h : d ≤ e) : d.toNat ≤ e.toNat := h
  obtain ⟨-, h⟩ | ⟨-, h⟩ | ⟨-, h⟩ := h
  · exact Nat.lt_of_le_of_lt (hle h) (by decide)
  · exact Nat.lt_of_le_of_lt (hle h) (by decide)
  · exact Nat.lt_of_le_of_lt (hle h) (by decide)

end Digit

/-- What is checked of each ASCII character holds of them all. -/
theorem ascii_forall {P : Char → Prop} (hall : ∀ n : Fin 128, P (Char.ofNat n)) {c : Char}
    (hc : c.toNat < 128) : P c := by
  have hn := hall ⟨c.toNat, hc⟩
  rwa [Char.ofNat_toNat] at hn

namespace Digit

variable {c : Char}

theorem lt_128 (h : Digit c) : c.toNat < 128 := Nat.lt_trans h.toNat_lt (by decide)

theorem value_lt (h : Digit c) : value c < 16 :=
  ascii_forall (P := fun c => Digit c → value c < 16) (by decide +kernel) h.lt_128 h

theorem toUpper_eq (h : Digit c) : c.toUpper = digit 'A' (value c).toUInt8 :=
  ascii_forall (P := fun c => Digit c → c.toUpper = digit 'A' (value c).toUInt8)
    (by decide +kernel) h.lt_128 h

/-- A character is a digit if its capital is one of those that are written. -/
theorem of_toUpper {n : Nat} (hn : n < 16) (h : c.toUpper = digit 'A' n.toUInt8) :
    Digit c ∧ value c = n := by
  have hcapital : ∀ k : Fin 16, Digit (digit 'A' k.val.toUInt8) ∧
      value (digit 'A' k.val.toUInt8) = k := by decide +kernel
  have hsmall : ∀ k : Fin 16, 65 ≤ (digit 'A' k.val.toUInt8).toNat →
      Digit (Char.ofNat ((digit 'A' k.val.toUInt8).toNat + 32)) ∧
        value (Char.ofNat ((digit 'A' k.val.toUInt8).toNat + 32)) = k := by decide +kernel
  obtain rfl | ⟨hletter, rfl⟩ := eq_of_toUpper_eq h
  · exact hcapital ⟨n, hn⟩
  · exact hsmall ⟨n, hn⟩ hletter

end Digit

theorem isDigit_iff (b : UInt8) : isDigit b ↔ Digit (Char.ofNat b.toNat) := by
  have hall : ∀ n : Fin 256, isDigit (UInt8.ofNat n) ↔
      Digit (Char.ofNat (UInt8.ofNat n).toNat) := by decide +kernel
  have h := hall ⟨b.toNat, b.toNat_lt⟩
  rwa [UInt8.ofNat_toNat] at h

section
variable {c : Char} {b : UInt8}

theorem utf8_of_ascii (h : c.toNat < 128) : String.utf8EncodeChar c = [c.toNat.toUInt8] :=
  if_pos (Nat.le_of_lt_succ h)

theorem le_of_mem_utf8 (h : 128 ≤ c.toNat) (hb : b ∈ String.utf8EncodeChar c) :
    128 ≤ b.toNat := by
  have hbyte (n : Nat) : (UInt8.ofNat n).toNat = n % 256 := UInt8.toNat_ofNat'
  have hlarge : ¬ c.val.toNat ≤ 127 := Nat.not_le_of_lt h
  simp only [String.utf8EncodeChar, hlarge, if_false] at hb
  split at hb
  · simp only [List.mem_cons, List.not_mem_nil, or_false] at hb
    obtain rfl | rfl := hb <;> rw [hbyte] <;> omega
  · split at hb
    · simp only [List.mem_cons, List.not_mem_nil, or_false] at hb
      obtain rfl | rfl | rfl := hb <;> rw [hbyte] <;> omega
    · simp only [List.mem_cons, List.not_mem_nil, or_false] at hb
      obtain rfl | rfl | rfl | rfl := hb <;> rw [hbyte] <;> omega

/-- Only the UTF-8 form of a digit has the byte of one, and it has no other. -/
theorem digit_iff_utf8 :
    Digit c ↔ ∀ b ∈ String.utf8EncodeChar c, Digit (Char.ofNat b.toNat) := by
  by_cases hc : c.toNat < 128
  · have hback : c.toNat.toUInt8.toNat = c.toNat :=
      UInt8.toNat_ofNat_of_lt (Nat.lt_trans hc (by decide))
    simp [utf8_of_ascii hc, hback]
  · have hlarge : 128 ≤ c.toNat := Nat.le_of_not_lt hc
    constructor
    · intro h
      exact absurd h.lt_128 hc
    · intro h
      obtain ⟨b, rest, hutf8⟩ := List.exists_cons_of_ne_nil (String.utf8EncodeChar_ne_nil (c := c))
      have hb : b ∈ String.utf8EncodeChar c := by simp [hutf8]
      have hlt := (h b hb).lt_128
      rw [Text.SingleByte.toNat_ofNat_of_lt b.toNat_lt] at hlt
      exact absurd (le_of_mem_utf8 hlarge hb) (Nat.not_le_of_lt hlt)

theorem digits_iff_utf8 {s : String} :
    (∀ c ∈ s.toList, Digit c) ↔ ∀ b ∈ utf8 s, Digit (Char.ofNat b.toNat) := by
  rw [utf8, List.forall_mem_flatMap]
  exact forall₂_congr fun c _ => digit_iff_utf8

/-- Digits have one byte each. -/
theorem utf8ByteSize_of_digits {s : String} (h : ∀ c ∈ s.toList, Digit c) :
    s.utf8ByteSize = s.length := by
  rw [← length_utf8, utf8, ← String.length_toList]
  generalize s.toList = chars at h
  induction chars with
  | nil => rfl
  | cons c chars ih =>
    have hc : String.utf8EncodeChar c = [c.toNat.toUInt8] := utf8_of_ascii (h c (by simp)).lt_128
    simpa [hc] using ih fun d hd => h d (by simp [hd])

end

theorem toNat_high (b : UInt8) : (b >>> 4).toNat = b.toNat / 16 := by
  rw [UInt8.toNat_shiftRight, Nat.shiftRight_eq_div_pow]
  rfl

theorem toNat_low (b : UInt8) : (b &&& 15).toNat = b.toNat % 16 := by
  rw [UInt8.toNat_and]
  exact Nat.and_two_pow_sub_one_eq_mod b.toNat 4

namespace Spells

variable {chars : List Char} {bytes : Bytes}

theorem digits (h : Spells chars bytes) : ∀ c ∈ chars, Digit c := by
  induction h with
  | nil => simp
  | cons hhigh hlow _ _ ih => simpa using ⟨hhigh, hlow, ih⟩

theorem length_eq (h : Spells chars bytes) : chars.length = 2 * bytes.length := by
  induction h with
  | nil => rfl
  | cons _ _ _ _ ih =>
    simp only [List.length_cons, ih]
    omega

end Spells

/-- The two digits of a byte, as they are written, are the capitals of those that spell it. -/
theorem toUpper_eq_pair_iff {high low : Char} {b : UInt8} :
    [high.toUpper, low.toUpper] = pair 'A' b ↔
      Digit high ∧ Digit low ∧ b.toNat = 16 * value high + value low := by
  constructor
  · intro h
    obtain ⟨hhigh, h⟩ := List.cons.inj h
    obtain ⟨hlow, -⟩ := List.cons.inj h
    obtain ⟨hhighDigit, hhighValue⟩ := Digit.of_toUpper (high_lt b)
      (by rwa [Nat.toUInt8, UInt8.ofNat_toNat])
    obtain ⟨hlowDigit, hlowValue⟩ := Digit.of_toUpper (low_lt b)
      (by rwa [Nat.toUInt8, UInt8.ofNat_toNat])
    refine ⟨hhighDigit, hlowDigit, ?_⟩
    rw [hhighValue, hlowValue, toNat_high, toNat_low, Nat.div_add_mod]
  · rintro ⟨hhigh, hlow, hb⟩
    have hlt := hlow.value_lt
    have hbyte {n : Nat} (hn : n < 16) : n.toUInt8.toNat = n :=
      UInt8.toNat_ofNat_of_lt (Nat.lt_trans hn (by decide))
    have hfirst : (value high).toUInt8 = b >>> 4 := by
      rw [← UInt8.toNat_inj, toNat_high, hb, hbyte hhigh.value_lt]
      omega
    have hsecond : (value low).toUInt8 = b &&& 15 := by
      rw [← UInt8.toNat_inj, toNat_low, hb, hbyte hlt]
      omega
    rw [hhigh.toUpper_eq, hlow.toUpper_eq, hfirst, hsecond]
    rfl

/-- What spells some bytes are their digits as they are written, up to the case of letters. -/
theorem spells_iff_toUpper {chars : List Char} {bytes : Bytes} :
    Spells chars bytes ↔ chars.map Char.toUpper = bytes.flatMap (pair 'A') := by
  constructor
  · intro h
    induction h with
    | nil => rfl
    | cons hhigh hlow hb _ ih =>
      rw [List.flatMap_cons, ← toUpper_eq_pair_iff.2 ⟨hhigh, hlow, hb⟩, ← ih]
      rfl
  · intro h
    induction bytes generalizing chars with
    | nil =>
      obtain rfl := List.map_eq_nil_iff.1 h
      exact .nil
    | cons b bytes ih =>
      obtain ⟨high, afterHigh, rfl, hhigh, h⟩ := List.map_eq_cons_iff.1 h
      obtain ⟨low, rest, rfl, hlow, h⟩ := List.map_eq_cons_iff.1 h
      have hpair : [high.toUpper, low.toUpper] = pair 'A' b := by rw [hhigh, hlow, pair]
      obtain ⟨hhighDigit, hlowDigit, hb⟩ := toUpper_eq_pair_iff.1 hpair
      exact .cons hhighDigit hlowDigit hb (ih h)

theorem exists_spells : ∀ {chars : List Char}, (∀ c ∈ chars, Digit c) → chars.length % 2 = 0 →
    ∃ bytes, Spells chars bytes
  | [], _, _ => ⟨[], .nil⟩
  | [_], _, heven => by simp at heven
  | high :: low :: chars, hdigits, heven => by
    have hhigh : Digit high := hdigits high (by simp)
    have hlow : Digit low := hdigits low (by simp)
    have hrest : chars.length % 2 = 0 := by
      simp only [List.length_cons] at heven
      omega
    obtain ⟨bytes, hbytes⟩ := exists_spells (fun c hc => hdigits c (by simp [hc])) hrest
    have hhighValue := hhigh.value_lt
    have hlowValue := hlow.value_lt
    exact ⟨(16 * value high + value low).toUInt8 :: bytes,
      .cons hhigh hlow (UInt8.toNat_ofNat_of_lt (by rw [UInt8.size]; omega)) hbytes⟩

theorem find_stray_iff {text : Bytes} {b : UInt8} :
    text.find? (fun b => !isDigit b) = some b ↔ ∃ front back, text = front ++ b :: back ∧
      (∀ x ∈ front, Digit (Char.ofNat x.toNat)) ∧ ¬ Digit (Char.ofNat b.toNat) := by
  have hgood (b : UInt8) : (!!isDigit b) = true ↔ Digit (Char.ofNat b.toNat) := by
    rw [Bool.not_not, isDigit_iff]
  have hbad (b : UInt8) : (!isDigit b) = true ↔ ¬ Digit (Char.ofNat b.toNat) := by
    rw [← isDigit_iff, Bool.not_eq_true', Bool.not_eq_true]
  rw [List.find?_eq_some_iff_append]
  simp only [hgood, hbad]
  constructor
  · rintro ⟨hb, front, back, hsplit, hfront⟩
    exact ⟨front, back, hsplit, hfront, hb⟩
  · rintro ⟨front, back, hsplit, hfront, hb⟩
    exact ⟨hb, front, back, hsplit, hfront⟩

/-- A text is refused for what is wrong with it, its length first. -/
theorem decode_eq_error_iff {s : String} {fault : Fault} :
    decode s = .error fault ↔ Faulty s fault := by
  rw [decode, length_utf8]
  by_cases hodd : s.utf8ByteSize % 2 = 1
  · rw [if_pos hodd]
    constructor
    · intro h
      cases h
      exact .odd hodd
    · intro h
      cases h with
      | odd => rfl
      | stray heven => omega
  · have heven : s.utf8ByteSize % 2 = 0 := by omega
    rw [if_neg hodd]
    constructor
    · intro h
      split at h
      next b hb =>
        cases h
        obtain ⟨front, back, hsplit, hfront, hb⟩ := find_stray_iff.1 hb
        exact .stray heven hsplit hfront hb
      next => cases h
    · intro h
      cases h with
      | odd h => exact absurd h hodd
      | stray _ hsplit hfront hb => rw [find_stray_iff.2 ⟨_, _, hsplit, hfront, hb⟩]

theorem find_none_iff {s : String} :
    (utf8 s).find? (fun b => !isDigit b) = none ↔ ∀ c ∈ s.toList, Digit c := by
  rw [digits_iff_utf8, List.find?_eq_none]
  simp only [Bool.not_eq_true', Bool.not_eq_false, isDigit_iff]

/-- The texts that are read are those of digits in pairs. -/
theorem exists_decode_iff {s : String} :
    (∃ bytes, decode s = .ok bytes) ↔ s.length % 2 = 0 ∧ ∀ c ∈ s.toList, Digit c := by
  rw [decode, length_utf8]
  constructor
  · rintro ⟨bytes, h⟩
    split at h
    next => cases h
    next hodd =>
      split at h
      next => cases h
      next hnone =>
        have hdigits := find_none_iff.1 hnone
        rw [utf8ByteSize_of_digits hdigits] at hodd
        exact ⟨by omega, hdigits⟩
  · rintro ⟨heven, hdigits⟩
    rw [← utf8ByteSize_of_digits hdigits] at heven
    rw [if_neg (by omega), find_none_iff.2 hdigits]
    exact ⟨_, rfl⟩

theorem toUpper_eq_upper_iff {s : String} {bytes : Bytes} :
    s.toUpper = upper bytes ↔ Spells s.toList bytes := by
  rw [spells_iff_toUpper, ← String.toList_inj, String.toUpper, String.toList_map, upper,
    String.toList_ofList]

/-- What is read from a text is what it spells. -/
theorem decode_eq_ok_iff {s : String} {bytes : Bytes} :
    decode s = .ok bytes ↔ Spells s.toList bytes := by
  have hread {found : Bytes} (h : Spells s.toList found) : decode s = .ok found :=
    decode_of_toUpper ((toUpper_eq_upper_iff.2 h).trans (toUpper_upper found).symm)
  refine ⟨fun h => ?_, hread⟩
  obtain ⟨heven, hdigits⟩ := exists_decode_iff.1 ⟨bytes, h⟩
  rw [← String.length_toList] at heven
  obtain ⟨found, hfound⟩ := exists_spells hdigits heven
  rw [hread hfound] at h
  cases h
  exact hfound

end Hex
end ChainScript
