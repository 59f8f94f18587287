import ChainScript.Text.Blank

/-! What is left of a text without the blanks at its ends. -/
namespace ChainScript.Text

/-- There are only blanks around the core, and none at either end of it. -/
structure Trimmed (chars core : List Char) : Prop where
  around : ∃ front back, chars = front ++ core ++ back ∧
    (∀ c ∈ front, isBlank c) ∧ ∀ c ∈ back, isBlank c
  head : ∀ c ∈ core.head?, ¬ isBlank c
  last : ∀ c ∈ core.getLast?, ¬ isBlank c

section
variable {chars front core back : List Char} {a b : Char}

theorem Trimmed.of_solid (hfront : ∀ c ∈ front, isBlank c) (hback : ∀ c ∈ back, isBlank c)
    (hcore : ∀ c ∈ core, ¬ isBlank c) : Trimmed (front ++ core ++ back) core where
  around := ⟨front, back, rfl, hfront, hback⟩
  head := fun c hc => hcore c (List.mem_of_head? hc)
  last := fun c hc => hcore c (List.mem_of_getLast? hc)

theorem head_dropWhile (chars : List Char) :
    ∀ c ∈ (chars.dropWhile isBlank).head?, ¬ isBlank c := by
  intro c hc
  have h := List.head?_dropWhile_not isBlank chars
  rw [Option.mem_def.1 hc] at h
  simp [h]

theorem dropWhile_of_head (h : ∀ c ∈ chars.head?, ¬ isBlank c) :
    chars.dropWhile isBlank = chars := by
  cases chars with
  | nil => rfl
  | cons c chars => exact List.dropWhile_cons_of_neg (h c rfl)

theorem dropWhile_of_blanks (h : ∀ c ∈ chars, isBlank c) : chars.dropWhile isBlank = [] := by
  rw [← List.append_nil chars, List.dropWhile_append_of_pos h, List.dropWhile_nil]

/-- Nothing is dropped from the first character on that is no blank. -/
theorem dropWhile_append_cons (ha : ¬ isBlank a) :
    (front ++ a :: back).dropWhile isBlank = front.dropWhile isBlank ++ a :: back := by
  rw [List.dropWhile_append]
  split
  next hempty => rw [List.isEmpty_iff.1 hempty, List.dropWhile_cons_of_neg ha, List.nil_append]
  next => rfl

theorem trimBlanks_append (hfront : ∀ c ∈ front, isBlank c) (hback : ∀ c ∈ back, isBlank c) :
    trimBlanks (front ++ core ++ back) = trimBlanks core := by
  have hreversed : ∀ c ∈ back.reverse, isBlank c := by simpa using hback
  rw [trimBlanks, List.append_assoc, List.dropWhile_append_of_pos hfront, List.dropWhile_append]
  split
  next hempty => rw [dropWhile_of_blanks hback, trimBlanks, List.isEmpty_iff.1 hempty]
  next => rw [List.reverse_append, List.dropWhile_append_of_pos hreversed, trimBlanks]

/-- From the first character that is no blank to the last nothing is lost. -/
theorem trimBlanks_between (front middle back : List Char) (ha : ¬ isBlank a) (hb : ¬ isBlank b) :
    trimBlanks (front ++ a :: (middle ++ b :: back)) = front.dropWhile isBlank ++
      a :: (middle ++ b :: (back.reverse.dropWhile isBlank).reverse) := by
  have hreverse : (front.dropWhile isBlank ++ a :: (middle ++ b :: back)).reverse =
      back.reverse ++ b :: (front.dropWhile isBlank ++ a :: middle).reverse := by simp
  rw [trimBlanks, dropWhile_append_cons ha, hreverse, dropWhile_append_cons hb]
  simp

theorem trimmed_trimBlanks (chars : List Char) : Trimmed chars (trimBlanks chars) := by
  let inner := chars.dropWhile isBlank
  let tail := (inner.reverse.takeWhile isBlank).reverse
  have hinner : inner = trimBlanks chars ++ tail := by
    rw [trimBlanks, ← List.reverse_append, List.takeWhile_append_dropWhile, List.reverse_reverse]
  refine ⟨⟨chars.takeWhile isBlank, tail, ?_, ?_, ?_⟩, ?_, ?_⟩
  · rw [List.append_assoc, ← hinner, List.takeWhile_append_dropWhile]
  · exact List.all_eq_true.1 List.all_takeWhile
  · simpa [tail] using List.all_eq_true.1 (List.all_takeWhile (l := inner.reverse) (p := isBlank))
  · intro c hc
    refine head_dropWhile chars c ?_
    change c ∈ inner.head?
    rw [hinner, List.head?_append, Option.mem_def.1 hc]
    rfl
  · intro c hc
    rw [trimBlanks, List.getLast?_reverse] at hc
    exact head_dropWhile _ c hc

theorem trimmed_iff : Trimmed chars core ↔ trimBlanks chars = core := by
  constructor
  · rintro ⟨⟨front, back, rfl, hfront, hback⟩, hhead, hlast⟩
    have hreversed : ∀ c ∈ core.reverse.head?, ¬ isBlank c := by rwa [List.head?_reverse]
    rw [trimBlanks_append hfront hback, trimBlanks, dropWhile_of_head hhead,
      dropWhile_of_head hreversed, List.reverse_reverse]
  · rintro rfl
    exact trimmed_trimBlanks chars

end

end ChainScript.Text
