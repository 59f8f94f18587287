import ChainScript.Envelope.Key
import ChainScript.Proofs.Hex.Spelling
import ChainScript.Proofs.Text.Trimming

/-! Which texts are secret keys. Blanks are taken off the ends first and then one mark from the
front, so the digits that are left can hide neither a second mark nor a blank. A pair of keys is
kept as its secret key, so the same digits are the same pair. -/
namespace ChainScript.Key
open Hex Text

def Mark (mark : List Char) : Prop := mark = ['0', 'x'] ∨ mark = ['0', 'X']

/-- The digits are what stands behind the mark, or all there is where there is none. -/
inductive Unmarked : List Char → List Char → Prop where
  | behind {mark digits} : Mark mark → Unmarked (mark ++ digits) digits
  | plain {digits} : (∀ mark, Mark mark → ¬ mark <+: digits) → Unmarked digits digits

/-- What the digits are read as. Only digits that are hexadecimal can be too few or too many. -/
inductive Reads (digits : List Char) : Except KeyFault (Block 32) → Prop where
  | secret {key : Block 32} : digits.length = 64 → (∀ c ∈ digits, Digit c) →
      Spells digits key.val → Reads digits (.ok key)
  | fault {fault} : Faulty (String.ofList digits) fault → Reads digits (.error (.badHex fault))
  | length : digits.length % 2 = 0 → (∀ c ∈ digits, Digit c) → digits.length / 2 ≠ 32 →
      Reads digits (.error (.wrongLength (digits.length / 2)))

/-- What no key has in it: a second mark, a blank between other characters, or a blank behind the
mark. -/
inductive Misplaced : List Char → Prop where
  | mark {front first second rest} : (∀ c ∈ front, isBlank c) → Mark first → Mark second →
      Misplaced (front ++ (first ++ (second ++ rest)))
  | inside {front back a c b} : a ∈ front → ¬ isBlank a → isBlank c → b ∈ back → ¬ isBlank b →
      Misplaced (front ++ c :: back)
  | behindMark {front mark c rest} : (∀ c ∈ front, isBlank c) → Mark mark → isBlank c →
      Misplaced (front ++ (mark ++ c :: rest))

section
variable {core digits mark : List Char}

theorem dropMark_append (h : Mark mark) : dropMark (mark ++ digits) = digits := by
  obtain rfl | rfl := h
  · rfl
  · rfl

theorem unmarked_iff : Unmarked core digits ↔ dropMark core = digits := by
  constructor
  · intro h
    cases h with
    | behind hmark => exact dropMark_append hmark
    | plain hnone =>
      rw [dropMark.eq_def]
      split
      next rest => exact absurd ⟨rest, rfl⟩ (hnone ['0', 'x'] (.inl rfl))
      next rest => exact absurd ⟨rest, rfl⟩ (hnone ['0', 'X'] (.inr rfl))
      next => rfl
  · rintro rfl
    rw [dropMark.eq_def]
    split
    next rest => exact .behind (.inl rfl : Mark ['0', 'x'])
    next rest => exact .behind (.inr rfl : Mark ['0', 'X'])
    next hsmall hcapital =>
      refine .plain fun mark hmark hfront => ?_
      obtain ⟨rest, rfl⟩ := hfront
      obtain rfl | rfl := hmark
      · exact hsmall rest rfl
      · exact hcapital rest rfl

/-- The second character of a mark is neither a blank nor a digit. -/
theorem Mark.exists_eq (h : Mark mark) : ∃ c, mark = ['0', c] ∧ ¬ isBlank c ∧ ¬ Digit c := by
  obtain rfl | rfl := h
  · exact ⟨'x', rfl, by decide, by decide⟩
  · exact ⟨'X', rfl, by decide, by decide⟩

theorem Mark.not_isBlank (h : Mark mark) : ∀ c ∈ mark, ¬ isBlank c := by
  obtain ⟨c, rfl, hc, -⟩ := h.exists_eq
  exact List.forall_mem_cons.2 ⟨by decide, List.forall_mem_singleton.2 hc⟩

/-- No blank is lost with the mark. -/
theorem Unmarked.mem {c : Char} (h : Unmarked core digits) (hc : isBlank c) (hmem : c ∈ core) :
    c ∈ digits := by
  cases h with
  | behind hmark =>
    obtain hmem | hmem := List.mem_append.1 hmem
    · exact absurd hc (hmark.not_isBlank c hmem)
    · exact hmem
  | plain => exact hmem

theorem not_isBlank_of_digit {c : Char} (h : Digit c) : ¬ isBlank c :=
  ascii_forall (P := fun c => Digit c → ¬ isBlank c) (by decide +kernel) h.lt_128 h

end

theorem reads_ofHex (s : String) : Reads (dropMark (trimBlanks s.toList)) (ofHex s) := by
  rw [ofHex]
  generalize dropMark (trimBlanks s.toList) = digits
  cases hdecode : decode (String.ofList digits) with
  | error fault => exact .fault (decode_eq_error_iff.1 hdecode)
  | ok bytes =>
    have hspells := decode_eq_ok_iff.1 hdecode
    rw [String.toList_ofList] at hspells
    have hlength := hspells.length_eq
    by_cases hbytes : bytes.length = 32
    · have hblock : Block.ofBytes? 32 bytes = some ⟨bytes, hbytes⟩ := dif_pos hbytes
      simp only [hblock]
      exact .secret (by omega) hspells.digits hspells
    · have hblock : Block.ofBytes? 32 bytes = none := dif_neg hbytes
      have hhalf : bytes.length = digits.length / 2 := by omega
      simp only [hblock, hhalf]
      exact .length (by omega) hspells.digits (by omega)

theorem ofHex_of_reads {s : String} {result : Except KeyFault (Block 32)}
    (h : Reads (dropMark (trimBlanks s.toList)) result) : ofHex s = result := by
  rw [ofHex]
  generalize dropMark (trimBlanks s.toList) = digits at h ⊢
  cases h with
  | @secret key hlength hdigits hspells =>
    have hdecode : decode (String.ofList digits) = .ok key.val :=
      decode_eq_ok_iff.2 (by rwa [String.toList_ofList])
    have hblock : Block.ofBytes? 32 key.val = some key := dif_pos key.property
    simp only [hdecode, hblock]
  | fault hfaulty => rw [decode_eq_error_iff.2 hfaulty]
  | length heven hdigits hhalf =>
    obtain ⟨bytes, hspells⟩ := exists_spells hdigits heven
    have hdecode : decode (String.ofList digits) = .ok bytes :=
      decode_eq_ok_iff.2 (by rwa [String.toList_ofList])
    have hlength := hspells.length_eq
    have hbytes : bytes.length = digits.length / 2 := by omega
    have hblock : Block.ofBytes? 32 bytes = none := dif_neg (by omega)
    simp only [hdecode, hblock, hbytes]

/-- All that is left of a key is its digits. -/
theorem digits_of_ofHex {s : String} {key : Block 32} (h : ofHex s = .ok key) :
    (dropMark (trimBlanks s.toList)).length = 64 ∧
      ∀ c ∈ dropMark (trimBlanks s.toList), Digit c := by
  have hreads := reads_ofHex s
  rw [h] at hreads
  cases hreads with
  | secret hlength hdigits => exact ⟨hlength, hdigits⟩

/-- The digits of a key may stand behind a mark and between blanks, with letters of either case. -/
theorem ofHex_of_toUpper {key : Block 32} {front back mark digits : List Char}
    (hfront : ∀ c ∈ front, isBlank c) (hback : ∀ c ∈ back, isBlank c)
    (hmark : mark = [] ∨ Mark mark) (hdigits : digits.map Char.toUpper = (upper key.val).toList) :
    ofHex (String.ofList (front ++ (mark ++ digits) ++ back)) = .ok key := by
  have hspells : Spells digits key.val := by
    rwa [spells_iff_toUpper, ← String.toList_ofList (l := key.val.flatMap (pair 'A'))]
  have hsolid : ∀ c ∈ mark ++ digits, ¬ isBlank c := by
    intro c hc
    obtain hc | hc := List.mem_append.1 hc
    · obtain rfl | hmark := hmark
      · cases hc
      · exact hmark.not_isBlank c hc
    · exact not_isBlank_of_digit (hspells.digits c hc)
  have hcore : trimBlanks (front ++ (mark ++ digits) ++ back) = mark ++ digits :=
    trimmed_iff.1 (.of_solid hfront hback hsolid)
  have hdropped : dropMark (mark ++ digits) = digits := by
    obtain rfl | hmark := hmark
    · refine unmarked_iff.1 (.plain fun mark hmark hstart => ?_)
      obtain ⟨c, rfl, -, hc⟩ := hmark.exists_eq
      exact hc (hspells.digits c (hstart.mem (by simp)))
    · exact dropMark_append hmark
  refine ofHex_of_reads ?_
  rw [String.toList_ofList, hcore, hdropped]
  exact .secret (by rw [hspells.length_eq, key.property]) hspells.digits hspells

section
variable {front back chars : List Char}

theorem mem_dropMark_of_inside {a b c : Char} (ha : a ∈ front) (hfirst : ¬ isBlank a)
    (hc : isBlank c) (hb : b ∈ back) (hlast : ¬ isBlank b) :
    c ∈ dropMark (trimBlanks (front ++ c :: back)) := by
  obtain ⟨before, left, rfl⟩ := List.append_of_mem ha
  obtain ⟨right, after, rfl⟩ := List.append_of_mem hb
  have hsplit : before ++ a :: left ++ c :: (right ++ b :: after) =
      before ++ a :: (left ++ c :: right ++ b :: after) := by simp
  refine (unmarked_iff.2 rfl).mem hc ?_
  rw [hsplit, trimBlanks_between before _ after hfirst hlast]
  simp

/-- Only one mark is taken off. -/
theorem exists_of_double {first second rest : List Char} (hfront : ∀ c ∈ front, isBlank c)
    (hfirst : Mark first) (hsecond : Mark second) :
    ∃ c ∈ dropMark (trimBlanks (front ++ (first ++ (second ++ rest)))), ¬ Digit c := by
  obtain ⟨a, rfl, -⟩ := hfirst.exists_eq
  obtain ⟨b, rfl, hblank, hb⟩ := hsecond.exists_eq
  have htrim : trimBlanks (front ++ (['0', a] ++ (['0', b] ++ rest))) =
      ['0', a] ++ '0' :: b :: (rest.reverse.dropWhile isBlank).reverse := by
    simpa [dropWhile_of_blanks hfront] using
      trimBlanks_between front [a, '0'] rest (by decide : ¬ isBlank '0') hblank
  refine ⟨b, ?_, hb⟩
  rw [htrim, dropMark_append hfirst]
  simp

theorem Misplaced.no_digits (h : Misplaced chars) :
    ¬ ((dropMark (trimBlanks chars)).length = 64 ∧ ∀ c ∈ dropMark (trimBlanks chars), Digit c) := by
  rintro ⟨hlength, hdigits⟩
  cases h with
  | mark hfront hfirst hsecond =>
    obtain ⟨c, hmem, hc⟩ := exists_of_double hfront hfirst hsecond
    exact hc (hdigits c hmem)
  | inside ha hfirst hc hb hlast =>
    exact not_isBlank_of_digit (hdigits _ (mem_dropMark_of_inside ha hfirst hc hb hlast)) hc
  | @behindMark front mark c rest hfront hmark hc =>
    rw [← List.append_assoc] at hlength hdigits
    by_cases hrest : ∀ b ∈ rest, isBlank b
    · have hback : ∀ b ∈ c :: rest, isBlank b := List.forall_mem_cons.2 ⟨hc, hrest⟩
      have hcore : trimBlanks (front ++ mark ++ c :: rest) = mark ++ [] := by
        rw [List.append_nil]
        exact trimmed_iff.1 (.of_solid hfront hback hmark.not_isBlank)
      rw [hcore, dropMark_append hmark] at hlength
      cases hlength
    · simp only [Classical.not_forall] at hrest
      obtain ⟨b, hb, hlast⟩ := hrest
      have hzero : '0' ∈ front ++ mark := by
        obtain ⟨x, rfl, -⟩ := hmark.exists_eq
        simp
      have hmem := mem_dropMark_of_inside hzero (by decide) hc hb hlast
      exact not_isBlank_of_digit (hdigits c hmem) hc

theorem Misplaced.refused {s : String} (h : Misplaced s.toList) :
    ∃ fault, ofHex s = .error fault := by
  cases hread : ofHex s with
  | error fault => exact ⟨fault, rfl⟩
  | ok key => exact absurd (digits_of_ofHex hread) h.no_digits

end

/-- A text is read as what its digits are read as, and these are found by taking off the blanks
around it and then one mark. So each key can be written with any blanks around it, with either mark
or none and with letters of either case, but a mark or a blank at any other place is refused. -/
theorem ofHex_grammar :
    (∀ s result, ofHex s = result ↔
      ∃ core digits, Trimmed s.toList core ∧ Unmarked core digits ∧ Reads digits result) ∧
    (∀ (key : Block 32) (front back mark digits : List Char), (∀ c ∈ front, isBlank c) →
      (∀ c ∈ back, isBlank c) → (mark = [] ∨ Mark mark) →
      digits.map Char.toUpper = (upper key.val).toList →
      ofHex (String.ofList (front ++ (mark ++ digits) ++ back)) = .ok key) ∧
    ∀ s : String, Misplaced s.toList → ∃ fault, ofHex s = .error fault := by
  refine ⟨fun s result => ?_, fun key front back mark digits => ofHex_of_toUpper,
    fun s => Misplaced.refused⟩
  constructor
  · rintro rfl
    exact ⟨_, _, trimmed_iff.2 rfl, unmarked_iff.2 rfl, reads_ofHex s⟩
  · rintro ⟨core, digits, htrimmed, hunmarked, h⟩
    refine ofHex_of_reads ?_
    rwa [trimmed_iff.1 htrimmed, unmarked_iff.1 hunmarked]

example : ofHex "zz" = .error (.badHex (.badByte 122)) := rfl
example : ofHex " 0X0102" = .error (.wrongLength 2) := rfl

/-- A key behind a no-break space and a mark, with letters of both cases and a line break at its
end, and three texts with the same digits that are no keys. -/
theorem ofHex_marked_key :
    let key : Block 32 := ⟨List.replicate 32 0xAB, rfl⟩
    let digits := (List.replicate 32 ['a', 'B']).flatten
    ofHex (String.ofList (['\u00a0'] ++ (['0', 'X'] ++ digits) ++ ['\n'])) = .ok key ∧
    (∃ fault, ofHex (String.ofList (['\t'] ++ (['0', 'x'] ++ (['0', 'X'] ++ digits)))) =
      .error fault) ∧
    (∃ fault, ofHex (String.ofList (['a'] ++ '\u3000' :: digits)) = .error fault) ∧
    ∃ fault, ofHex (String.ofList ([] ++ (['0', 'x'] ++ ' ' :: digits))) = .error fault := by
  intro key digits
  obtain ⟨-, hsame, hrefused⟩ := ofHex_grammar
  have hmember : 'B' ∈ digits := by decide
  refine ⟨hsame key _ _ _ digits ?_ ?_ ?_ ?_, hrefused _ ?_, hrefused _ ?_, hrefused _ ?_⟩
  · exact List.forall_mem_singleton.2 rfl
  · exact List.forall_mem_singleton.2 rfl
  · exact .inr (.inr rfl)
  · decide
  · rw [String.toList_ofList]
    exact .mark (List.forall_mem_singleton.2 rfl) (.inl rfl) (.inr rfl)
  · rw [String.toList_ofList]
    exact .inside List.mem_cons_self (by decide) (by decide) hmember (by decide)
  · rw [String.toList_ofList]
    exact .behindMark (List.forall_mem_nil _) (.inl rfl) (by decide)

end ChainScript.Key
